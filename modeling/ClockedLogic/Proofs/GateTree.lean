import ClockedLogic.Gate.Basic
import Mathlib.Data.List.Nodup
import Mathlib.Tactic.Common

/-!
Gates inside gates. In a tree of gates with different indices two gates are either one inside
the other or have nothing in common.
-/

namespace ClockedLogic

namespace Gate

theorem mem_allOf_iff {gates : List Gate} {inner : Gate} :
    inner ∈ allOf gates ↔ ∃ gate ∈ gates, inner ∈ gate.all := by
  rw [allOf_eq_flatMap, List.mem_flatMap]

theorem mem_all_self (gate : Gate) : gate ∈ gate.all := List.mem_of_getLast? (getLast?_all gate)

theorem mem_all_iff {gate inner : Gate} :
    inner ∈ gate.all ↔ inner = gate ∨ ∃ part ∈ gate.parts, inner ∈ part.all := by
  cases gate with
  | builtIn site chip => simp [all, parts]
  | composite site internals gates =>
    rw [all, List.mem_append, List.mem_singleton, mem_allOf_iff, or_comm]
    rfl

theorem mem_all_of_part {gate part : Gate} (h : part ∈ gate.parts) : part ∈ gate.all :=
  mem_all_iff.mpr (.inr ⟨part, h, part.mem_all_self⟩)

theorem mem_all_trans {inner middle outer : Gate} (h : inner ∈ middle.all)
    (h' : middle ∈ outer.all) : inner ∈ outer.all := by
  induction outer using Gate.inductionOn with
  | builtIn site chip =>
    rw [all, List.mem_singleton] at h'
    rwa [← h']
  | composite site internals gates ih =>
    rcases mem_all_iff.mp h' with rfl | ⟨part, hpart, hmiddle⟩
    · exact h
    · exact mem_all_iff.mpr (.inr ⟨part, hpart, ih part hpart hmiddle⟩)

theorem part_mem_all {root owner part : Gate} (howner : owner ∈ root.all)
    (hpart : part ∈ owner.parts) : part ∈ root.all :=
  mem_all_trans (mem_all_of_part hpart) howner

theorem all_sublist {inner outer : Gate} (h : inner ∈ outer.all) :
    inner.all.Sublist outer.all := by
  induction outer using Gate.inductionOn with
  | builtIn site chip =>
    rw [all, List.mem_singleton] at h
    rw [h]
  | composite site internals gates ih =>
    rcases mem_all_iff.mp h with rfl | ⟨part, hpart, hinner⟩
    · exact List.Sublist.refl _
    · refine (ih part hpart hinner).trans ?_
      rw [all, allOf_eq_flatMap, List.flatMap_def]
      exact (List.sublist_flatten_of_mem (List.mem_map_of_mem hpart)).trans
        (List.sublist_append_left _ _)

/-- What every gate hands down to its parts holds of all gates inside. -/
theorem forall_inside {property : Gate → Prop} {gate : Gate} (h : property gate)
    (hparts : ∀ owner ∈ gate.all, property owner → ∀ part ∈ owner.parts, property part) :
    ∀ inner ∈ gate.all, property inner := by
  induction gate using Gate.inductionOn with
  | builtIn site chip =>
    intro inner hinner
    rw [all, List.mem_singleton] at hinner
    rwa [hinner]
  | composite site internals gates ih =>
    intro inner hinner
    rcases mem_all_iff.mp hinner with rfl | ⟨part, hpart, hinner⟩
    · exact h
    · have hmem := @mem_all_of_part (composite site internals gates) part hpart
      exact ih part hpart (hparts _ (mem_all_self _) h part hpart)
        (fun owner howner => hparts owner (mem_all_trans howner hmem)) inner hinner

def Distinct (gate : Gate) : Prop := (gate.all.map index).Nodup

theorem Distinct.inside {root gate : Gate} (h : root.Distinct) (hgate : gate ∈ root.all) :
    gate.Distinct := List.Nodup.sublist ((all_sublist hgate).map index) h

theorem Distinct.eq {root a b : Gate} (h : root.Distinct) (ha : a ∈ root.all) (hb : b ∈ root.all)
    (hindex : a.index = b.index) : a = b := List.inj_on_of_nodup_map h ha hb hindex

theorem Distinct.notMem_part {gate part : Gate} (h : gate.Distinct) (hpart : part ∈ gate.parts) :
    gate ∉ part.all := by
  intro hmem
  cases gate with
  | builtIn => cases hpart
  | composite site internals gates =>
    rw [Distinct, all, List.map_append, List.nodup_append] at h
    refine h.2.2 _ (List.mem_map_of_mem ?_) _ (List.mem_map_of_mem (List.mem_singleton_self _)) rfl
    exact mem_allOf_iff.mpr ⟨part, hpart, hmem⟩

theorem Distinct.antisymm {a b : Gate} (h : b.Distinct) (ha : a ∈ b.all) (hb : b ∈ a.all) :
    a = b := by
  rcases mem_all_iff.mp ha with rfl | ⟨part, hpart, hinner⟩
  · rfl
  · exact absurd (mem_all_trans hb hinner) (h.notMem_part hpart)

/-- Parts that have a gate in common stand at one position. -/
theorem position_eq_of_mem_all {gates : List Gate} (h : ((allOf gates).map index).Nodup)
    {i j : Nat} {a b inner : Gate} (ha : gates[i]? = some a) (hb : gates[j]? = some b)
    (hinner : inner ∈ a.all) (hinner' : inner ∈ b.all) : i = j := by
  induction gates generalizing i j with
  | nil => cases ha
  | cons gate gates ih =>
    rw [allOf, List.map_append, List.nodup_append] at h
    have hapart : ∀ other ∈ gates, inner ∈ gate.all → inner ∈ other.all → False := by
      intro other hother hfirst hsecond
      refine h.2.2 _ (List.mem_map_of_mem hfirst) _ (List.mem_map_of_mem ?_) rfl
      exact mem_allOf_iff.mpr ⟨other, hother, hsecond⟩
    cases i with
    | zero =>
      obtain rfl := Option.some.inj ha
      cases j with
      | zero => rfl
      | succ j => exact (hapart b (List.mem_of_getElem? hb) hinner hinner').elim
    | succ i =>
      cases j with
      | zero =>
        obtain rfl := Option.some.inj hb
        exact (hapart a (List.mem_of_getElem? ha) hinner' hinner).elim
      | succ j => exact congrArg (· + 1) (ih h.2.1 ha hb)

/-- Parts that have a gate in common are one. -/
theorem eq_of_mem_allOf {gates : List Gate} (h : ((allOf gates).map index).Nodup) {a b inner : Gate}
    (ha : a ∈ gates) (hb : b ∈ gates) (hinner : inner ∈ a.all) (hinner' : inner ∈ b.all) :
    a = b := by
  obtain ⟨i, hi⟩ := List.mem_iff_getElem?.mp ha
  obtain ⟨j, hj⟩ := List.mem_iff_getElem?.mp hb
  obtain rfl := position_eq_of_mem_all h hi hj hinner hinner'
  exact Option.some.inj (hi.symm.trans hj)

theorem Distinct.parts {gate : Gate} (h : gate.Distinct) :
    ((allOf gate.parts).map index).Nodup := by
  cases gate with
  | builtIn => exact List.nodup_nil
  | composite site internals gates =>
    rw [Distinct, all, List.map_append, List.nodup_append] at h
    exact h.1

/-- Gates that have a gate in common are one inside the other. -/
theorem Distinct.nested {root a b inner : Gate} (h : root.Distinct) (ha : a ∈ root.all)
    (hb : b ∈ root.all) (hinner : inner ∈ a.all) (hinner' : inner ∈ b.all) :
    a ∈ b.all ∨ b ∈ a.all := by
  induction root using Gate.inductionOn with
  | builtIn site chip =>
    rw [all, List.mem_singleton] at ha hb
    rw [ha, hb]
    exact .inl (mem_all_self _)
  | composite site internals gates ih =>
    rcases mem_all_iff.mp ha with rfl | ⟨part, hpart, hapart⟩
    · exact .inr hb
    · rcases mem_all_iff.mp hb with rfl | ⟨other, hother, hbpart⟩
      · exact .inl ha
      · obtain rfl := eq_of_mem_allOf h.parts hpart hother (mem_all_trans hinner hapart)
          (mem_all_trans hinner' hbpart)
        exact ih part hpart (h.inside (mem_all_of_part hpart)) hapart hbpart

/-- A gate with a part of an owner inside is the part or has the owner inside too. -/
theorem Distinct.owner_inside {root owner part gate : Gate} (h : root.Distinct)
    (howner : owner ∈ root.all) (hpart : part ∈ owner.parts) (hgate : gate ∈ root.all)
    (hmem : part ∈ gate.all) : gate = part ∨ owner ∈ gate.all := by
  have hinner := mem_all_of_part hpart
  rcases h.nested howner hgate hinner hmem with hinside | hinside
  · exact .inr hinside
  · rcases mem_all_iff.mp hinside with rfl | ⟨other, hother, hgateOther⟩
    · exact .inr (mem_all_self _)
    · obtain rfl := eq_of_mem_allOf (h.inside howner).parts hpart hother (mem_all_self part)
        (mem_all_trans hmem hgateOther)
      exact .inl ((h.inside (mem_all_trans hinner howner)).antisymm hgateOther hmem)

end Gate

end ClockedLogic
