import ClockedLogic.Proofs.Resting

/-!
Rising edges. A rising edge changes nothing that shows, so a sound state stays sound. If a gate is
at rest, all chips inside latch what follows from the values of the nodes as they are, and nothing
else happens: the order of the parts makes no difference.
-/

namespace ClockedLogic

variable {root : Gate} {draft : Draft} {state : State} {gate : Gate}

/-- A gate that takes no part in clock edges has no gate inside that does. -/
theorem Fabric.not_clocked_inside (fabric : Fabric root draft) (hgate : gate ∈ root.all)
    (hclocked : gate.component.isClocked = false) :
    ∀ inner ∈ gate.all, inner.component.isClocked = false := by
  induction gate using Gate.inductionOn with
  | builtIn site spec =>
    intro inner hinner
    rw [Gate.all, List.mem_singleton] at hinner
    rwa [hinner]
  | composite site internals parts ih =>
    intro inner hinner
    rcases Gate.mem_all_iff.mp hinner with rfl | ⟨part, hpart, hinner⟩
    · exact hclocked
    · refine ih part hpart (Gate.part_mem_all hgate hpart) ?_ inner hinner
      rw [Bool.eq_false_iff]
      intro hpartClocked
      have howner := fabric.clocked _ _ _ hgate part hpart hpartClocked
      rw [Gate.component, Gate.site, howner] at hclocked
      cases hclocked

/-- Clock edges leave a chip as it is if its gate takes no part in them. -/
theorem Sane.exists_still (hsane : Sane root draft state) (fabric : Fabric root draft) {site : Site}
    {spec : ChipSpec} (hgate : .builtIn site spec ∈ root.all)
    (hclocked : site.component.isClocked = false) : ∃ found, state.chip? site.index = some found ∧
      (∀ inputs, found.rise inputs = found) ∧ found.fall = found := by
  obtain ⟨kind, rfl, hcomponent, -⟩ := fabric.builtIns _ _ hgate
  obtain ⟨found, hfound, hrealizes⟩ := hsane.chips _ _ hgate
  rw [hcomponent] at hclocked
  exact ⟨found, hfound, hrealizes.still hclocked⟩

/-- What becomes of a state when the chips inside some gates get a rising edge at once. -/
structure Latched (root : Gate) (inside : Gate → Prop) (before after : State) : Prop where
  signals : after.signals = before.signals
  latched : ∀ site spec, .builtIn site spec ∈ root.all → inside (.builtIn site spec) →
    after.chip? site.index = (before.chip? site.index).map (Chip.rise · (before.read site.inputs))
  others : ∀ site spec, .builtIn site spec ∈ root.all → ¬ inside (.builtIn site spec) →
    after.chip? site.index = before.chip? site.index

namespace Latched

variable {inside other : Gate → Prop} {before middle after : State}

theorem read_eq (h : Latched root inside before after) (nodes : List Nat) :
    after.read nodes = before.read nodes := by
  simp only [State.read, h.signals]

theorem isDirty_eq (h : Latched root inside before after) (index : Nat) :
    after.isDirty index = before.isDirty index := by
  simp only [State.isDirty, h.signals]

/-- Each chip is as it was or has had a rising edge. -/
theorem chip (h : Latched root inside before after) {site : Site} {spec : ChipSpec}
    (hgate : .builtIn site spec ∈ root.all) {found : Chip}
    (hfound : before.chip? site.index = some found) :
    after.chip? site.index = some found ∨
      ∃ inputs, after.chip? site.index = some (found.rise inputs) := by
  by_cases hinside : inside (.builtIn site spec)
  · rw [h.latched site spec hgate hinside, hfound]
    exact .inr ⟨_, rfl⟩
  · rw [h.others site spec hgate hinside, hfound]
    exact .inl rfl

theorem calm (h : Latched root inside before after) (hsane : Sane root draft before)
    (fabric : Fabric root draft) (hgate : gate ∈ root.all) (hcalm : before.Calm gate) :
    after.Calm gate := by
  cases gate with
  | builtIn site spec =>
    obtain ⟨kind, rfl, -⟩ := fabric.builtIns _ _ hgate
    obtain ⟨found, hfound, -⟩ := hsane.chips _ _ hgate
    intro chip hchip
    rw [h.read_eq, h.read_eq]
    rcases h.chip hgate hfound with hsame | ⟨inputs, hrisen⟩
    · obtain rfl := Option.some.inj (hsame.symm.trans hchip)
      exact hcalm found hfound
    · obtain rfl := Option.some.inj (hrisen.symm.trans hchip)
      rw [Chip.respond_rise]
      exact hcalm found hfound
  | composite site internals parts =>
    intro part hpart
    rw [h.isDirty_eq]
    exact hcalm part hpart

theorem sane (h : Latched root inside before after) (hsane : Sane root draft before) :
    Sane root draft after where
  values_size := by rw [h.signals]; exact hsane.values_size
  dirty_size := by rw [h.signals]; exact hsane.dirty_size
  chips site kind hgate := by
    obtain ⟨found, hfound, hrealizes⟩ := hsane.chips site kind hgate
    rcases h.chip hgate hfound with hsame | ⟨inputs, hrisen⟩
    · exact ⟨found, hsame, hrealizes⟩
    · exact ⟨_, hrisen, hrealizes.rise inputs⟩
  holds := by rw [h.signals]; exact hsane.holds
  rest := by rw [h.signals]; exact hsane.rest

theorem honest (h : Latched root inside before after) (hsane : Sane root draft before)
    (fabric : Fabric root draft) {opened : Nat → Prop} (hhonest : Honest root opened before) :
    Honest root opened after := by
  intro found hfound hopened hclean
  rw [h.isDirty_eq] at hclean
  exact h.calm hsane fabric hfound (hhonest found hfound hopened hclean)

theorem sound (h : Latched root inside before after) (fabric : Fabric root draft)
    (hsound : Sound root draft before) : Sound root draft after :=
  ⟨h.sane hsound.sane, h.honest hsound.sane fabric hsound.honest⟩

theorem atRest (h : Latched root inside before after) (fabric : Fabric root draft)
    (hsane : Sane root draft before) (hgate : gate ∈ root.all) (hrest : before.AtRest gate) :
    after.AtRest gate := by
  intro inner hinner
  obtain ⟨hclean, hcalm⟩ := hrest inner hinner
  exact ⟨by rwa [h.isDirty_eq], h.calm hsane fabric (Gate.mem_all_trans hinner hgate) hcalm⟩

/-- Where no chip takes part in clock edges, nothing has to happen. -/
theorem refl_of_not_clocked (fabric : Fabric root draft) (hsane : Sane root draft before)
    (h : ∀ gate, inside gate → gate.component.isClocked = false) :
    Latched root inside before before where
  signals := rfl
  latched site spec hgate hinside := by
    obtain ⟨found, hfound, hrise, -⟩ := hsane.exists_still fabric hgate (h _ hinside)
    rw [hfound, Option.map_some, hrise]
  others _ _ _ _ := rfl

theorem trans_apart (hapart : ∀ gate, inside gate → ¬ other gate)
    (h : Latched root inside before middle) (h' : Latched root other middle after) :
    Latched root (fun gate => inside gate ∨ other gate) before after where
  signals := h'.signals.trans h.signals
  latched site spec hgate hinside := by
    rcases hinside with hinside | hother
    · rw [h'.others site spec hgate (hapart _ hinside), h.latched site spec hgate hinside]
    · rw [h'.latched site spec hgate hother, h.read_eq,
        h.others site spec hgate fun hinside => hapart _ hinside hother]
  others site spec hgate hneither := by
    rw [not_or] at hneither
    rw [h'.others site spec hgate hneither.2, h.others site spec hgate hneither.1]

end Latched

def State.install (state : State) (index : Nat) (chip : Chip) : State :=
  { state with chips := state.chips.setIfInBounds index (some chip) }

theorem State.chip?_install {index : Nat} {found : Chip} (hfound : state.chip? index = some found)
    (chip : Chip) (other : Nat) : (state.install index chip).chip? other =
      if index = other then some chip else state.chip? other := by
  have hlt : index < state.chips.size := by
    by_contra hge
    rw [chip?, Array.getElem?_eq_none (Nat.le_of_not_lt hge)] at hfound
    cases hfound
  simp only [chip?, install, Array.getElem?_setIfInBounds]
  split
  · rfl
  · rfl

theorem latched_latch (fabric : Fabric root draft) (hsane : Sane root draft state) {site : Site}
    {spec : ChipSpec} (hgate : .builtIn site spec ∈ root.all) :
    Latched root (· ∈ (Gate.builtIn site spec).all) state (state.latch site) := by
  obtain ⟨kind, rfl, -⟩ := fabric.builtIns _ _ hgate
  obtain ⟨found, hfound, -⟩ := hsane.chips _ _ hgate
  have hlatch : state.latch site = state.install site.index
    (found.rise (state.read site.inputs)) := by
    simp only [State.latch, hfound, State.install]
  simp only [hlatch, Gate.all, List.mem_singleton]
  refine ⟨rfl, ?_, ?_⟩
  · rintro site' spec' - hsame
    simp only [Gate.builtIn.injEq] at hsame
    obtain ⟨rfl, -⟩ := hsame
    rw [State.chip?_install hfound, if_pos rfl, hfound]
    rfl
  · intro site' spec' hgate' hne
    rw [State.chip?_install hfound, if_neg]
    intro hindex
    exact hne (fabric.distinct.eq hgate' hgate hindex.symm)

theorem Sound.tickAll (fabric : Fabric root draft) {limit : Nat} (hlimit : draft.sweepBound ≤ limit)
    {gates : List Gate} (hgates : ∀ gate ∈ gates, gate ∈ root.all)
    (hrise : ∀ gate ∈ gates, ∀ now, Sound root draft now →
      Sound root draft (gate.rise draft.netlist limit now) ∧
        Rises draft.netlist gate now (gate.rise draft.netlist limit now))
    (h : Sound root draft state) :
    Sound root draft (Gate.tickAll draft.netlist limit gates state) ∧
      RisesAll draft.netlist gates state (Gate.tickAll draft.netlist limit gates state) := by
  obtain ⟨level, hlevel⟩ := fabric.levels
  induction gates generalizing state with
  | nil =>
    unfold Gate.tickAll
    exact ⟨h, .nil⟩
  | cons gate gates ih =>
    obtain ⟨hrefreshed, -, hrefreshes⟩ :=
      h.refresh fabric hlevel hlimit (hgates gate List.mem_cons_self)
    obtain ⟨hrisen, hrises⟩ := hrise gate List.mem_cons_self _ hrefreshed.sound
    obtain ⟨hlast, hrest⟩ := ih (fun other hother => hgates other (List.mem_cons_of_mem _ hother))
      (fun other hother => hrise other (List.mem_cons_of_mem _ hother)) hrisen
    unfold Gate.tickAll
    exact ⟨hlast, .cons hrefreshes hrises hrest⟩

theorem Sound.rise (h : Sound root draft state) (fabric : Fabric root draft) {limit : Nat}
    (hlimit : draft.sweepBound ≤ limit) (hgate : gate ∈ root.all) :
    Sound root draft (gate.rise draft.netlist limit state) ∧
      Rises draft.netlist gate state (gate.rise draft.netlist limit state) := by
  induction gate using Gate.inductionOn generalizing state with
  | builtIn site spec =>
    unfold Gate.rise
    split
    · rename_i hclocked
      exact ⟨(latched_latch fabric h.sane hgate).sound fabric h, .builtIn hclocked⟩
    · rename_i hclocked
      exact ⟨h, .still (Bool.eq_false_iff.mpr hclocked)⟩
  | composite site internals parts ih =>
    unfold Gate.rise
    split
    · rename_i hclocked
      have hparts : ∀ part ∈ parts, part ∈ root.all := fun _ => Gate.part_mem_all hgate
      obtain ⟨hlast, hrises⟩ := h.tickAll fabric hlimit hparts
        fun part hpart now hnow => ih part hpart hnow (hparts part hpart)
      exact ⟨hlast, .composite hclocked hrises⟩
    · rename_i hclocked
      exact ⟨h, .still (Bool.eq_false_iff.mpr hclocked)⟩

theorem latched_tickAll (fabric : Fabric root draft) {limit : Nat} (hlimit : 1 ≤ limit)
    {gates : List Gate} (hgates : ∀ gate ∈ gates, gate ∈ root.all)
    (hdistinct : ((Gate.allOf gates).map Gate.index).Nodup)
    (hrise : ∀ gate ∈ gates, ∀ now, Sound root draft now → now.AtRest gate →
      Latched root (· ∈ gate.all) now (gate.rise draft.netlist limit now))
    (hsound : Sound root draft state) (hrest : ∀ gate ∈ gates, state.AtRest gate) :
    Latched root (· ∈ Gate.allOf gates) state (Gate.tickAll draft.netlist limit gates state) := by
  induction gates generalizing state with
  | nil =>
    unfold Gate.tickAll
    exact ⟨rfl, fun _ _ _ h => (List.not_mem_nil h).elim, fun _ _ _ _ => rfl⟩
  | cons gate gates ih =>
    rw [Gate.allOf, List.map_append, List.nodup_append] at hdistinct
    have hfirst := hrise gate List.mem_cons_self state hsound (hrest gate List.mem_cons_self)
    rw [Gate.tickAll, (refresh_atRest fabric hsound.sane hlimit (hgates gate List.mem_cons_self)
      (hrest gate List.mem_cons_self)).1]
    have hlater := ih (fun other hother => hgates other (List.mem_cons_of_mem _ hother))
      hdistinct.2.1 (fun other hother => hrise other (List.mem_cons_of_mem _ hother))
      (hfirst.sound fabric hsound)
      fun other hother => hfirst.atRest fabric hsound.sane
        (hgates other (List.mem_cons_of_mem _ hother)) (hrest other (List.mem_cons_of_mem _ hother))
    have hboth := hfirst.trans_apart (fun inner hinner hinner' => hdistinct.2.2 _
      (List.mem_map_of_mem hinner) _ (List.mem_map_of_mem hinner') rfl) hlater
    simpa only [Gate.allOf, List.mem_append] using hboth

/-- On a rising edge of a gate at rest all chips inside latch at once. -/
theorem latched_rise (fabric : Fabric root draft) {limit : Nat} (hlimit : 1 ≤ limit)
    (hgate : gate ∈ root.all) (hsound : Sound root draft state) (hrest : state.AtRest gate) :
    Latched root (· ∈ gate.all) state (gate.rise draft.netlist limit state) := by
  induction gate using Gate.inductionOn generalizing state with
  | builtIn site spec =>
    unfold Gate.rise
    split
    · exact latched_latch fabric hsound.sane hgate
    · rename_i hclocked
      exact .refl_of_not_clocked fabric hsound.sane
        (fabric.not_clocked_inside hgate (Bool.eq_false_iff.mpr hclocked))
  | composite site internals parts ih =>
    unfold Gate.rise
    split
    · have hparts : ∀ part ∈ parts, part ∈ (Gate.composite site internals parts).all :=
        fun part hpart => Gate.mem_all_of_part hpart
      have hall := latched_tickAll fabric hlimit
        (fun part hpart => Gate.mem_all_trans (hparts part hpart) hgate)
        (fabric.distinct.inside hgate).parts
        (fun part hpart now hnow hnowRest =>
          ih part hpart (Gate.mem_all_trans (hparts part hpart) hgate) hnow hnowRest)
        hsound fun part hpart => hrest.inside (hparts part hpart)
      refine ⟨hall.signals, fun site' spec' hmem hinside => hall.latched site' spec' hmem ?_,
        fun site' spec' hmem hinside => hall.others site' spec' hmem fun hinner =>
          hinside (List.mem_append_left _ hinner)⟩
      exact (List.mem_append.mp hinside).resolve_right (by simp)
    · rename_i hclocked
      exact .refl_of_not_clocked fabric hsound.sane
        (fabric.not_clocked_inside hgate (Bool.eq_false_iff.mpr hclocked))

end ClockedLogic
