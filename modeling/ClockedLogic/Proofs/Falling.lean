import ClockedLogic.Proofs.Rising

/-!
Falling edges. Chips commit one after the other, and what they show runs on to other parts while
some chips have not committed yet. The gates around are open meanwhile, and dirty at the end, so
the state stays sound; and each chip commits what it has latched, whatever it reads by then.
-/

namespace ClockedLogic

/-- What becomes of a state when the chips inside some gates get a falling edge. -/
structure Fallen (root : Gate) (draft : Draft) (opened : Nat → Prop) (inside : Gate → Prop)
    (before after : State) : Prop where
  sane : Sane root draft after
  honest : Honest root opened after
  fallen : ∀ site spec, .builtIn site spec ∈ root.all → inside (.builtIn site spec) →
    after.chip? site.index = (before.chip? site.index).map Chip.fall
  others : ∀ site spec, .builtIn site spec ∈ root.all → ¬ inside (.builtIn site spec) →
    after.chip? site.index = before.chip? site.index
  entries : ∀ node ∈ root.inputs, after.value node = before.value node
  flags : ∀ gate ∈ root.all, ¬ inside gate → before.isDirty gate.index = true →
    after.isDirty gate.index = true

variable {root : Gate} {draft : Draft} {level : Nat → Nat} {opened : Nat → Prop}
  {inside other : Gate → Prop} {before middle after : State} {gate : Gate}

namespace Fallen

theorem refl_of_not_clocked (fabric : Fabric root draft) (hsane : Sane root draft before)
    (hhonest : Honest root opened before)
    (h : ∀ gate, inside gate → gate.component.isClocked = false) :
    Fallen root draft opened inside before before where
  sane := hsane
  honest := hhonest
  fallen site spec hgate hinside := by
    obtain ⟨found, hfound, -, hfall⟩ := hsane.exists_still fabric hgate (h _ hinside)
    rw [hfound, Option.map_some, hfall]
  others _ _ _ _ := rfl
  entries _ _ := rfl
  flags _ _ _ hdirty := hdirty

theorem refreshed (fabric : Fabric root draft) (hinside : ∀ gate, inside gate → gate ∈ root.all)
    {times : Nat} (h : Fallen root draft opened inside before middle)
    (h' : Refreshed root draft level opened inside times middle after) :
    Fallen root draft opened inside before after where
  sane := h'.moves.sane
  honest := h'.honest
  fallen site spec hgate hmem := by
    rw [State.chip?, h'.moves.chips]
    exact h.fallen site spec hgate hmem
  others site spec hgate hmem := by
    rw [State.chip?, h'.moves.chips]
    exact h.others site spec hgate hmem
  entries node hnode := (h'.moves.entries fabric hinside hnode).trans (h.entries node hnode)
  flags gate hgate houtside hdirty :=
    h'.moves.flags gate hgate houtside (h.flags gate hgate houtside hdirty)

theorem trans_apart (hapart : ∀ gate, inside gate → ¬ other gate)
    (h : Fallen root draft opened inside before middle)
    (h' : Fallen root draft opened other middle after) :
    Fallen root draft opened (fun gate => inside gate ∨ other gate) before after where
  sane := h'.sane
  honest := h'.honest
  fallen site spec hgate hmem := by
    rcases hmem with hinside | hother
    · rw [h'.others site spec hgate (hapart _ hinside), h.fallen site spec hgate hinside]
    · rw [h'.fallen site spec hgate hother,
        h.others site spec hgate fun hinside => hapart _ hinside hother]
  others site spec hgate hneither := by
    rw [not_or] at hneither
    rw [h'.others site spec hgate hneither.2, h.others site spec hgate hneither.1]
  entries node hnode := (h'.entries node hnode).trans (h.entries node hnode)
  flags gate hgate hneither hdirty := by
    rw [not_or] at hneither
    exact h'.flags gate hgate hneither.2 (h.flags gate hgate hneither.1 hdirty)

end Fallen

theorem State.isDirty_soil {state : State} {index : Nat} (h : index < state.signals.dirty.size)
    (other : Nat) : (state.soil index).isDirty other =
      (state.isDirty other || decide (other = index)) := FlagSet.contains_insert _ _ _ h

theorem Sane.soil (h : Sane root draft before) (index : Nat) :
    Sane root draft (before.soil index) where
  values_size := h.values_size
  dirty_size := (FlagSet.size_insert _ _).trans h.dirty_size
  chips := h.chips
  holds := h.holds
  rest := h.rest

/-- A gate that was open becomes dirty. -/
theorem Honest.soil (fabric : Fabric root draft) (hsane : Sane root draft before)
    (hgate : gate ∈ root.all)
    (h : Honest root (fun index => opened index ∨ index = gate.index) before)
    (haround : Around root opened before gate) : Honest root opened (before.soil gate.index) := by
  have hflags := @State.isDirty_soil before gate.index
    (by rw [hsane.dirty_size]; exact fabric.index_lt hgate)
  intro inner hinner hopened hclean
  rw [hflags, Bool.or_eq_false_iff, decide_eq_false_iff_not] at hclean
  have hcalm := h inner hinner (by rw [not_or]; exact ⟨hopened, hclean.2⟩) hclean.1
  cases inner with
  | builtIn site spec => exact hcalm
  | composite site internals parts =>
    intro part hpart
    rw [hflags, hcalm part hpart, Bool.false_or, decide_eq_false_iff_not]
    intro hindex
    have hmem := @Gate.mem_all_of_part (.composite site internals parts) part hpart
    obtain rfl := fabric.distinct.eq (Gate.mem_all_trans hmem hinner) hgate hindex
    rcases haround _ hinner hmem with hsame | hopen | hdirty
    · exact hclean.2 (congrArg Gate.index hsame)
    · exact hopened hopen
    · rw [hclean.1] at hdirty
      cases hdirty

theorem Sane.install (fabric : Fabric root draft) (h : Sane root draft before) {site : Site}
    {kind : Primitive} (hgate : .builtIn site (.primitive kind) ∈ root.all) {chip : Chip}
    (hchip : chip.Realizes kind) : Sane root draft (before.install site.index chip) where
  values_size := h.values_size
  dirty_size := h.dirty_size
  chips site' kind' hgate' := by
    obtain ⟨found, hfound, -⟩ := h.chips _ _ hgate
    rw [State.chip?_install hfound]
    split
    · rename_i hindex
      have hsame := fabric.distinct.eq hgate' hgate hindex.symm
      simp only [Gate.builtIn.injEq, ChipSpec.primitive.injEq] at hsame
      obtain ⟨rfl, rfl⟩ := hsame
      exact ⟨_, rfl, hchip⟩
    · exact h.chips site' kind' hgate'
  holds := h.holds
  rest := h.rest

/-- Replacing the chip of a gate keeps a state honest while the gate is open. -/
theorem Honest.install (h : Honest root opened before) {index : Nat} {found : Chip}
    (hfound : before.chip? index = some found) (chip : Chip) :
    Honest root (fun gate => opened gate ∨ gate = index) (before.install index chip) := by
  intro inner hinner hopened hclean
  rw [not_or] at hopened
  have hcalm := h inner hinner hopened.1 hclean
  cases inner with
  | builtIn site spec =>
    intro other hother
    rw [State.chip?_install hfound, if_neg fun hindex => hopened.2 hindex.symm] at hother
    exact hcalm other hother
  | composite => exact hcalm

/-- After the chips inside a gate have got their falling edge the gate becomes dirty, and need not
be open any more. -/
theorem Fallen.soil (fabric : Fabric root draft) (hgate : gate ∈ root.all)
    (h : Fallen root draft (fun index => opened index ∨ index = gate.index) inside before after)
    (hinside : ∀ inner, inside inner → inner ∈ gate.all)
    (hchips : ∀ site spec, .builtIn site spec ∈ gate.all → inside (.builtIn site spec))
    (haround : Around root opened before gate) :
    Fallen root draft opened (· ∈ gate.all) before (after.soil gate.index) := by
  refine ⟨h.sane.soil gate.index, ?_, ?_, ?_, h.entries, ?_⟩
  · apply Honest.soil fabric h.sane hgate h.honest
    intro outer houter hinner
    rcases haround outer houter hinner with hsame | hopen | hdirty
    · exact .inl hsame
    · exact .inr (.inl hopen)
    · by_cases hsame : outer = gate
      · exact .inl hsame
      · refine .inr (.inr (h.flags outer houter (fun hmem => hsame ?_) hdirty))
        exact (fabric.distinct.inside hgate).antisymm (hinside outer hmem) hinner
  · intro site spec hmem hinner
    exact h.fallen site spec hmem (hchips site spec hinner)
  · intro site spec hmem hinner
    exact h.others site spec hmem fun hinner' => hinner (hinside _ hinner')
  · intro outer houter houtside hdirty
    have hindex : gate.index < after.signals.dirty.size := by
      rw [h.sane.dirty_size]
      exact fabric.index_lt hgate
    have hkept := h.flags outer houter (fun hmem => houtside (hinside outer hmem)) hdirty
    rw [State.isDirty_soil hindex, hkept, Bool.true_or]

theorem fallen_write (fabric : Fabric root draft) (hhonest : Honest root opened before)
    {site : Site} {kind : Primitive}
    (hgate : .builtIn site (.primitive kind) ∈ root.all)
    (haround : Around root opened before (.builtIn site (.primitive kind))) {chip : Chip}
    (hchip : before.chip? site.index = some chip) {values : List Word}
    (hwritten : Written root draft site.outputs values
      (before.install site.index chip.fall) after) :
    Fallen root draft (fun index => opened index ∨ index = site.index)
      (· = .builtIn site (.primitive kind)) before after := by
  have hchips : ∀ index, after.chip? index =
      if site.index = index then some chip.fall else before.chip? index := by
    intro index
    rw [← State.chip?_install hchip]
    exact congrArg (fun chips => (chips[index]?).join) hwritten.chips
  refine ⟨hwritten.sane, ?_, ?_, ?_, ?_, fun _ _ _ => hwritten.flags _⟩
  · apply hwritten.honest _ (hhonest.install hchip chip.fall)
    intro site' spec' hgate' hexists
    obtain ⟨node, hnode, hnode'⟩ := hexists
    obtain rfl := fabric.outputs_apart site site' _ _ node hgate hgate' hnode hnode'
    obtain heq : Gate.builtIn site spec' = .builtIn site (.primitive kind) :=
      fabric.distinct.eq hgate' hgate rfl
    rw [heq]
    exact haround.covered
  · intro site' spec' _ hsame
    rw [Gate.builtIn.injEq] at hsame
    obtain ⟨rfl, -⟩ := hsame
    rw [hchips, if_pos rfl, hchip]
    rfl
  · intro site' spec' hgate' hne
    rw [hchips, if_neg]
    intro hindex
    exact hne (fabric.distinct.eq hgate' hgate hindex.symm)
  · intro node hnode
    exact hwritten.frame node (.inl hnode) fun hout =>
      fabric.entries_apart site _ node hgate hout hnode

/-- Committing is to replace the chip, to give the outputs their values and to make the gate
dirty. -/
theorem exists_committed (fabric : Fabric root draft) (hsane : Sane root draft before) {site : Site}
    {spec : ChipSpec} (hgate : .builtIn site spec ∈ root.all) : ∃ kind chip middle,
      spec = .primitive kind ∧ before.chip? site.index = some chip ∧
      Written root draft site.outputs (chip.showFallen (before.read site.outputs))
        (before.install site.index chip.fall) middle ∧
      before.commit draft.netlist site = middle.soil site.index := by
  obtain ⟨kind, rfl, -, -, -, hnodup⟩ := fabric.builtIns _ _ hgate
  obtain ⟨chip, hchip, hrealizes⟩ := hsane.chips _ _ hgate
  have hlength : (chip.showFallen (before.read site.outputs)).length = site.outputs.length := by
    unfold Chip.showFallen
    split <;> simp
  refine ⟨kind, chip, _, rfl, hchip, written_write fabric
    (hsane.install fabric hgate hrealizes.fall) (fun node hnode => .inr ⟨site, _, hgate, hnode⟩)
    hnodup hlength, ?_⟩
  simp only [State.commit, hchip]
  rfl

theorem fallen_commit (fabric : Fabric root draft) (hsane : Sane root draft before)
    (hhonest : Honest root opened before) {site : Site} {spec : ChipSpec}
    (hgate : .builtIn site spec ∈ root.all)
    (haround : Around root opened before (.builtIn site spec))
    (hclocked : site.component.isClocked = true) :
    Fallen root draft opened (· ∈ (Gate.builtIn site spec).all) before
        (before.commit draft.netlist site) ∧
      Falls draft.netlist (.builtIn site spec) before (before.commit draft.netlist site) := by
  obtain ⟨kind, chip, after, rfl, hchip, hwritten, hcommit⟩ := exists_committed fabric hsane hgate
  rw [hcommit]
  constructor
  · have hfallen := fallen_write fabric hhonest hgate haround hchip hwritten
    exact Fallen.soil fabric hgate hfallen (fun _ => List.mem_singleton.mpr)
      (fun _ _ => List.mem_singleton.mp) haround
  · have hafter : after = ⟨after.signals, before.chips.setIfInBounds site.index
        (some chip.fall)⟩ := congrArg (State.mk after.signals) hwritten.chips
    rw [hafter]
    exact .builtIn hclocked hchip hwritten.takes

/-- What a falling edge of a gate comes to, wherever the gates around it are open or dirty. -/
def CanFall (root : Gate) (draft : Draft) (limit : Nat) (gate : Gate) : Prop :=
  ∀ (opened : Nat → Prop) (state : State), Sane root draft state → Honest root opened state →
    (∀ inner ∈ gate.all, ¬ opened inner.index) → Around root opened state gate →
    Fallen root draft opened (· ∈ gate.all) state (gate.fall draft.netlist limit state) ∧
      Falls draft.netlist gate state (gate.fall draft.netlist limit state)

theorem fallen_tockAll (fabric : Fabric root draft) {limit : Nat}
    (hlimit : draft.sweepBound ≤ limit) {owner : Gate} (howner : owner ∈ root.all)
    {gates : List Gate} (hparts : ∀ gate ∈ gates, gate ∈ owner.parts)
    (hdistinct : ((Gate.allOf gates).map Gate.index).Nodup)
    (hfall : ∀ gate ∈ gates, CanFall root draft limit gate) (hsane : Sane root draft before)
    (hhonest : Honest root opened before)
    (hopened : ∀ inner ∈ Gate.allOf gates, ¬ opened inner.index)
    (hcovered : Covered root opened before owner) :
    Fallen root draft opened (· ∈ Gate.allOf gates) before
        (Gate.tockAll draft.netlist limit gates before) ∧
      FallsAll draft.netlist gates before (Gate.tockAll draft.netlist limit gates before) := by
  obtain ⟨level, hlevel⟩ := fabric.levels
  induction gates generalizing before with
  | nil =>
    unfold Gate.tockAll
    exact ⟨.refl_of_not_clocked fabric hsane hhonest fun _ h => (List.not_mem_nil h).elim, .nil⟩
  | cons gate gates ih =>
    have hpart := hparts gate List.mem_cons_self
    have hgate := Gate.part_mem_all howner hpart
    have hnone : ∀ inner ∈ gate.all, ¬ opened inner.index :=
      fun inner hinner => hopened inner (List.mem_append_left _ hinner)
    have hinside : ∀ inner ∈ gate.all, inner ∈ root.all :=
      fun inner hinner => Gate.mem_all_trans hinner hgate
    obtain ⟨hfallen, hfalls⟩ := hfall gate List.mem_cons_self opened before hsane hhonest hnone
      (hcovered.around_part fabric howner hpart)
    have hcoveredFallen := hcovered.kept fabric howner (fun inner hinner => ⟨gate, hpart, hinner⟩)
      hfallen.flags
    obtain ⟨hrefreshed, -, hrefreshes⟩ :=
      canRefresh fabric hlevel hlimit hgate opened _ hfallen.sane
      hfallen.honest hnone (hcoveredFallen.around_part fabric howner hpart)
    have hfirst := hfallen.refreshed fabric hinside hrefreshed
    rw [Gate.allOf, List.map_append, List.nodup_append] at hdistinct
    obtain ⟨hrest, hrestAll⟩ :=
      ih (fun other hother => hparts other (List.mem_cons_of_mem _ hother))
      hdistinct.2.1 (fun other hother => hfall other (List.mem_cons_of_mem _ hother)) hfirst.sane
      hfirst.honest (fun inner hinner => hopened inner (List.mem_append_right _ hinner))
      (hcovered.kept fabric howner (fun inner hinner => ⟨gate, hpart, hinner⟩) hfirst.flags)
    have hboth := hfirst.trans_apart (fun inner hinner hinner' => hdistinct.2.2 _
      (List.mem_map_of_mem hinner) _ (List.mem_map_of_mem hinner') rfl) hrest
    unfold Gate.tockAll
    refine ⟨?_, .cons hfalls hrefreshes hrestAll⟩
    simpa only [Gate.allOf, List.mem_append] using hboth

theorem canFall (fabric : Fabric root draft) {limit : Nat} (hlimit : draft.sweepBound ≤ limit)
    (hgate : gate ∈ root.all) : CanFall root draft limit gate := by
  induction gate using Gate.inductionOn with
  | builtIn site spec =>
    intro opened state hsane hhonest _ haround
    unfold Gate.fall
    split
    · rename_i hclocked
      exact fallen_commit fabric hsane hhonest hgate haround hclocked
    · rename_i hclocked
      have hstill := Bool.eq_false_iff.mpr hclocked
      exact ⟨.refl_of_not_clocked fabric hsane hhonest (fabric.not_clocked_inside hgate hstill),
        .still hstill⟩
  | composite site internals parts ih =>
    intro opened state hsane hhonest hopened haround
    unfold Gate.fall
    split
    · rename_i hclocked
      have hparts : ∀ part ∈ parts, part ∈ root.all := fun _ => Gate.part_mem_all hgate
      have hopen : Honest root (fun index => opened index ∨ index = site.index) state :=
        fun inner hinner hnot => hhonest inner hinner fun h => hnot (.inl h)
      obtain ⟨hall, hfalls⟩ := fallen_tockAll fabric hlimit hgate (fun _ h => h)
        (fabric.distinct.inside hgate).parts (fun part hpart => ih part hpart (hparts part hpart))
        hsane hopen (fabric.not_opened_inside hgate hopened) haround.covered
      refine ⟨Fallen.soil fabric hgate hall (fun inner hinner => List.mem_append_left _ hinner)
        (fun site' spec' hinner => ?_) haround, .composite hclocked hfalls⟩
      exact (List.mem_append.mp hinner).resolve_right (by simp)
    · rename_i hclocked
      have hstill := Bool.eq_false_iff.mpr hclocked
      exact ⟨.refl_of_not_clocked fabric hsane hhonest (fabric.not_clocked_inside hgate hstill),
        .still hstill⟩

theorem Fallen.sound (h : Fallen root draft (fun _ => False) inside before after) :
    Sound root draft after := ⟨h.sane, h.honest⟩

/-- A falling edge of a whole circuit keeps a sound state sound. -/
theorem Sound.fall {state : State} (h : Sound root draft state) (fabric : Fabric root draft)
    {limit : Nat} (hlimit : draft.sweepBound ≤ limit) :
    Fallen root draft (fun _ => False) (· ∈ root.all) state (root.fall draft.netlist limit state) ∧
      Falls draft.netlist root state (root.fall draft.netlist limit state) := by
  apply canFall fabric hlimit root.mem_all_self _ state h.sane h.honest (fun _ _ => id)
  intro outer houter hinner
  exact .inl (fabric.distinct.antisymm houter hinner)

end ClockedLogic
