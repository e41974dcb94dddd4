import ClockedLogic.Circuit.Basic
import ClockedLogic.Proofs.Resting

/-!
The state in which a circuit starts. All links have been followed, all gates are dirty, the inputs
are 0 and the chips hold nothing yet.
-/

namespace ClockedLogic

def State.held (state : State) (index : Nat) : Store :=
  match state.chip? index with
  | some chip => chip.held
  | none => .nothing

def State.latched (state : State) (index : Nat) : Store :=
  match state.chip? index with
  | some chip => chip.fall.held
  | none => .nothing

structure Fresh (root : Gate) (draft : Draft) (state : State) : Prop where
  sound : Sound root draft state
  dirty : ∀ gate ∈ root.all, state.isDirty gate.index = true
  entries : ∀ node ∈ root.inputs, state.value node = 0
  held : ∀ site kind, .builtIn site (.primitive kind) ∈ root.all →
    state.held site.index = kind.clear ∧ state.latched site.index = kind.clear

theorem Circuit.exists_makeChips {gates : List Gate}
    (h : ∀ site spec, .builtIn site spec ∈ gates → ∃ kind, spec = .primitive kind) :
    ∃ chips, makeChips gates = .ok chips ∧ ∀ (index : Nat) site kind,
      gates[index]? = some (.builtIn site (.primitive kind)) →
        ∃ chip, chips[index]? = some (some chip) ∧ chip.Realizes kind ∧ chip.held = kind.clear ∧
          chip.fall.held = kind.clear := by
  induction gates with
  | nil => exact ⟨[], rfl, fun index site kind hgate => by cases hgate⟩
  | cons gate gates ih =>
    obtain ⟨chips, hchips, hmade⟩ :=
      ih fun site spec hgate => h site spec (List.mem_cons_of_mem _ hgate)
    cases gate with
    | builtIn site spec =>
      obtain ⟨kind, rfl⟩ := h site spec List.mem_cons_self
      obtain ⟨chip, hchip, hrealizes, hheld, hfallen⟩ := Chip.exists_make kind
      refine ⟨some chip :: chips, by rw [makeChips, hchip, hchips]; rfl, ?_⟩
      rintro (_ | index) site' kind' hgate
      · simp only [List.getElem?_cons_zero, Option.some.injEq, Gate.builtIn.injEq,
          ChipSpec.primitive.injEq] at hgate
        obtain ⟨rfl, rfl⟩ := hgate
        exact ⟨chip, rfl, hrealizes, hheld, hfallen⟩
      · exact hmade index site' kind' hgate
    | composite site internals parts =>
      refine ⟨none :: chips, by rw [makeChips, hchips]; rfl, ?_⟩
      rintro (_ | index) site' kind' hgate
      · simp at hgate
      · exact hmade index site' kind' hgate

namespace Fabric

variable {root : Gate} {draft : Draft}

/-- The gates stand in the order of their indices. -/
theorem getElem?_all (fabric : Fabric root draft) {gate : Gate} (hgate : gate ∈ root.all) :
    root.all[gate.index]? = some gate := by
  obtain ⟨position, hlt, rfl⟩ := List.getElem_of_mem hgate
  have hindex : (root.all.map Gate.index)[position]? = some position := by
    rw [fabric.indices, List.getElem?_range hlt]
  rw [List.getElem?_map, List.getElem?_eq_getElem hlt] at hindex
  rw [Option.some.inj hindex, List.getElem?_eq_getElem hlt]

/-- The links can be followed from the values that the nodes start with. -/
theorem inStepNow_cascadeAll (fabric : Fabric root draft) (gates : Nat) :
    Cascade.InStepNow draft.netlist (Array.replicate draft.netlist.size 0) draft.values
      (Signals.ofDraft draft gates).cascadeAll :=
  Cascade.inStepNow_all fabric.values_size (fun node bit hone => (fabric.ones_apart node bit hone).1)
    fun _ => Signals.mem_pending_cascadeAll

/-- What following all links at the start comes to. -/
theorem spread_start (fabric : Fabric root draft) (gates : Nat) :
    Cascade.Spread draft.netlist (Array.replicate draft.netlist.size 0) draft.values
      ((Signals.ofDraft draft gates).cascadeAll.finish draft.netlist) := by
  refine Cascade.spread_finish fabric.tidy (fun source link _ bit _ => ?_)
    (fabric.inStepNow_cascadeAll gates) ?_
  · rw [bitOf_replicate_zero, bitOf_replicate_zero]
  · rw [Signals.cascadeAll, List.length_reverse, ← fabric.values_size]
    refine Nat.le_succ_of_le (Nat.le_trans (List.length_filter_le _ _) ?_)
    rw [List.length_range]
    exact Nat.le_refl _

theorem dirty_start (fabric : Fabric root draft) :
    (Signals.start draft root.all.length).dirty.size = root.all.length ∧
      ∀ gate ∈ root.all,
        (Signals.start draft root.all.length).dirty.contains gate.index = true := by
  have hspread := fabric.spread_start root.all.length
  have hsize : (Signals.ofDraft draft root.all.length).dirty.size = root.all.length :=
    FlagSet.size_full _
  obtain ⟨hdirtySize, hflags⟩ := Signals.dirty_absorb fun gate hmark => by
    obtain ⟨listened, hgate, -⟩ := (hspread.marks gate).mp hmark
    obtain ⟨found, hfound, rfl, -⟩ := (fabric.listens listened gate).mp hgate
    exact Nat.lt_of_lt_of_eq (fabric.index_lt hfound) hsize.symm
  refine ⟨hdirtySize.trans hsize, fun gate hgate => (hflags gate.index).mpr (.inl ?_)⟩
  rw [Signals.ofDraft, FlagSet.contains_full]
  exact decide_eq_true (fabric.index_lt hgate)

/-- The signals at the start are sane, with any chips of the right primitives. -/
theorem sane_start (fabric : Fabric root draft) {chips : Array (Option Chip)}
    (hchips : ∀ site kind, .builtIn site (.primitive kind) ∈ root.all → ∃ chip,
      State.chip? ⟨.start draft root.all.length, chips⟩ site.index = some chip ∧
        chip.Realizes kind) :
    Sane root draft ⟨.start draft root.all.length, chips⟩ := by
  have hspread := fabric.spread_start root.all.length
  have hvalues : (Signals.start draft root.all.length).values =
      ((Signals.ofDraft draft root.all.length).cascadeAll.finish draft.netlist).values :=
    Signals.values_absorb _ _
  refine ⟨?_, fabric.dirty_start.1, hchips, ?_, fun node bit hcopied _ => ?_⟩
  · rw [hvalues]
    exact hspread.size
  · rw [hvalues]
    exact hspread.holds
  · rw [hvalues]
    exact hspread.others node bit hcopied

theorem entries_start (fabric : Fabric root draft) {node : Nat} (hnode : node ∈ root.inputs) :
    (Signals.start draft root.all.length).value node = 0 := by
  have hsets : root.Sets node := .inl hnode
  have hspread := fabric.spread_start root.all.length
  rw [Signals.value, Signals.start, Signals.values_absorb]
  refine BitVec.eq_of_getLsbD_eq fun bit _ => ?_
  rw [getLsbD_zero, Bool.eq_false_iff]
  intro hone
  refine (fabric.ones_apart node bit ?_).2 hsets
  rw [← hspread.others node bit (fabric.sets_not_copied node bit hsets)]
  exact hone

theorem exists_fresh (fabric : Fabric root draft) :
    ∃ chips, Circuit.makeChips root.all = .ok chips ∧
      Fresh root draft ⟨.start draft root.all.length, chips.toArray⟩ := by
  obtain ⟨chips, hchips, hmade⟩ := @Circuit.exists_makeChips root.all fun site spec hgate => by
    obtain ⟨kind, hkind, -⟩ := fabric.builtIns site spec hgate
    exact ⟨kind, hkind⟩
  have hchip : ∀ site kind, .builtIn site (.primitive kind) ∈ root.all → ∃ chip,
      State.chip? ⟨.start draft root.all.length, chips.toArray⟩ site.index = some chip ∧
        chip.Realizes kind ∧ chip.held = kind.clear ∧ chip.fall.held = kind.clear := by
    intro site kind hgate
    obtain ⟨chip, hfound, hrest⟩ := hmade site.index site kind (fabric.getElem?_all hgate)
    refine ⟨chip, ?_, hrest⟩
    rw [State.chip?, List.getElem?_toArray, hfound, Option.join_some]
  have hdirty : ∀ gate ∈ root.all,
      State.isDirty ⟨.start draft root.all.length, chips.toArray⟩ gate.index = true :=
    fabric.dirty_start.2
  refine ⟨chips, hchips, ⟨fabric.sane_start fun site kind hgate => ?_, ?_⟩, hdirty,
    fun node hnode => fabric.entries_start hnode, ?_⟩
  · obtain ⟨chip, hfound, hrealizes, -⟩ := hchip site kind hgate
    exact ⟨chip, hfound, hrealizes⟩
  · intro gate hgate _ hclean
    rw [hdirty gate hgate] at hclean
    cases hclean
  · intro site kind hgate
    obtain ⟨chip, hfound, -, hheld, hfallen⟩ := hchip site kind hgate
    rw [State.held, State.latched, hfound]
    exact ⟨hheld, hfallen⟩

end Fabric

end ClockedLogic
