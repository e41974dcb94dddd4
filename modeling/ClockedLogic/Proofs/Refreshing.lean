import ClockedLogic.Proofs.Honesty

/-!
Bringing a gate up to date. Whatever is evaluated inside a gate only changes what the built in
gates inside drive, and never what is firm: outputs below some level that agree with their inputs.
Each sweep over the parts of a gate makes one level more firm. Once all levels are firm another
sweep changes nothing and leaves no part dirty, so the sweeps end.
-/

namespace ClockedLogic

/-- Whether those outputs of some built in gates that are still agree with what the gates hold and
read. -/
def Agrees (still : Nat → Prop) (inside : Gate → Prop) (state : State) : Prop :=
  ∀ site kind chip, inside (.builtIn site (.primitive kind)) →
    state.chip? site.index = some chip → ∀ (position node : Nat),
    site.outputs[position]? = some node → still node →
    (kind.answer chip.held (state.read site.inputs))[position]? = some (state.value node)

/-- Whether the outputs below a level of some built in gates agree with what the gates hold and
read. -/
def Firm (level : Nat → Nat) (bound : Nat) (inside : Gate → Prop) (state : State) : Prop :=
  ∀ site kind chip, inside (.builtIn site (.primitive kind)) →
    state.chip? site.index = some chip → ∀ (position node : Nat),
    site.outputs[position]? = some node → level node < bound →
    (kind.answer chip.held (state.read site.inputs))[position]? = some (state.value node)

structure Moves (root : Gate) (draft : Draft) (level : Nat → Nat) (inside : Gate → Prop)
    (before after : State) : Prop where
  sane : Sane root draft after
  chips : after.chips = before.chips
  frame : ∀ node, root.Sets node →
    (∀ site chip, inside (.builtIn site chip) → node ∉ site.outputs) →
    after.value node = before.value node
  flags : ∀ gate ∈ root.all, ¬ inside gate → before.isDirty gate.index = true →
    after.isDirty gate.index = true
  root_flag : after.isDirty root.index = true → before.isDirty root.index = true
  still : ∀ bound, Firm level bound inside before → ∀ node, level node < bound →
    after.value node = before.value node

structure Refreshed (root : Gate) (draft : Draft) (level : Nat → Nat) (opened : Nat → Prop)
    (inside : Gate → Prop) (times : Nat) (before after : State) : Prop where
  moves : Moves root draft level inside before after
  honest : Honest root opened after
  firm : ∀ bound, Firm level bound inside before → Firm level (bound + times) inside after

variable {root : Gate} {draft : Draft} {level : Nat → Nat} {opened : Nat → Prop}
  {inside other : Gate → Prop} {before middle after : State}

theorem Firm.mono {bound : Nat} (h : Firm level bound inside before)
    (hsub : ∀ site chip, other (.builtIn site chip) → inside (.builtIn site chip)) {lower : Nat}
    (hle : lower ≤ bound) : Firm level lower other before :=
  fun site kind chip hgate hchip position node hnode hlevel =>
    h site kind chip (hsub _ _ hgate) hchip position node hnode (Nat.lt_of_lt_of_le hlevel hle)

theorem firm_zero : Firm level 0 inside before :=
  fun _ _ _ _ _ _ _ _ h => absurd h (Nat.not_lt_zero _)

/-- A built in gate is settled if all its outputs agree with what it holds and reads. -/
theorem settled_iff (fabric : Fabric root draft) {site : Site} {kind : Primitive} {chip : Chip}
    (hgate : .builtIn site (.primitive kind) ∈ root.all)
    (hchip : before.chip? site.index = some chip) (hrealizes : chip.Realizes kind) :
    before.Settled site ↔ ∀ (position node : Nat), site.outputs[position]? = some node →
      (kind.answer chip.held (before.read site.inputs))[position]? = some (before.value node) := by
  obtain ⟨_, hkind, -, -, hlength, -⟩ := fabric.builtIns _ _ hgate
  obtain rfl := ChipSpec.primitive.inj hkind
  have hanswer := hrealizes.respond_eq (before.read site.inputs) (before.read site.outputs)
    (by rw [State.length_read, hlength])
  constructor
  · intro hsettled position node hnode
    rw [← hanswer, hsettled chip hchip, State.getElem?_read, hnode]
    rfl
  · intro hfirm found hfound
    obtain rfl := Option.some.inj (hchip.symm.trans hfound)
    rw [hanswer]
    apply List.ext_getElem?
    intro position
    rw [State.getElem?_read]
    cases hnode : site.outputs[position]? with
    | none =>
      rw [Option.map_none, List.getElem?_eq_none_iff, hrealizes.length_answer, ← hlength]
      exact List.getElem?_eq_none_iff.mp hnode
    | some node => exact hfirm position node hnode

/-- Where built in gates are settled, everything is firm. -/
theorem firm_of_settled (fabric : Fabric root draft) (hsane : Sane root draft before)
    (hinside : ∀ gate, inside gate → gate ∈ root.all)
    (h : ∀ site chip, inside (.builtIn site chip) → before.Settled site) (bound : Nat) :
    Firm level bound inside before := by
  intro site kind chip hgate hchip position node hnode _
  obtain ⟨found, hfound, hrealizes⟩ := hsane.chips _ _ (hinside _ hgate)
  obtain rfl := Option.some.inj (hfound.symm.trans hchip)
  exact (settled_iff fabric (hinside _ hgate) hchip hrealizes).mp (h _ _ hgate) position node hnode

/-- Where everything is firm below all levels, built in gates are settled. -/
theorem Firm.settled (fabric : Fabric root draft) (hlevel : Leveled root draft.netlist level)
    (hsane : Sane root draft before) (hinside : ∀ gate, inside gate → gate ∈ root.all)
    {bound : Nat} (h : Firm level bound inside before) (hbound : draft.netlist.size < bound)
    {site : Site} {chip : ChipSpec} (hgate : inside (.builtIn site chip)) :
    before.Settled site := by
  obtain ⟨kind, rfl, -⟩ := fabric.builtIns _ _ (hinside _ hgate)
  obtain ⟨found, hfound, hrealizes⟩ := hsane.chips _ _ (hinside _ hgate)
  rw [settled_iff fabric (hinside _ hgate) hfound hrealizes]
  intro position node hnode
  exact h site kind found hgate hfound position node hnode
    (Nat.lt_of_le_of_lt (hlevel.le node) hbound)

/-- Outputs still agree if neither they change nor anything that they depend on. -/
theorem Agrees.congr (fabric : Fabric root draft) (hsane : Sane root draft before)
    {still : Nat → Prop} (h : Agrees still inside before)
    (hinside : ∀ gate, inside gate → gate ∈ root.all) (hchips : after.chips = before.chips)
    (houtputs : ∀ site chip, inside (.builtIn site chip) → ∀ node ∈ site.outputs,
      still node → after.value node = before.value node)
    (hinputs : ∀ site kind, inside (.builtIn site (.primitive kind)) → ∀ node ∈ site.outputs,
      still node → ∀ (position input : Nat), site.inputs[position]? = some input →
      kind.component.isInputClocked position = false → after.value input = before.value input) :
    Agrees still inside after := by
  intro site kind chip hgate hchip position node hnode hstill
  have hmem := hinside _ hgate
  have hout := List.mem_of_getElem? hnode
  have hchipBefore : before.chip? site.index = some chip := by
    rw [State.chip?, ← hchips]
    exact hchip
  obtain ⟨_, hkind, -, hlength, -, -⟩ := fabric.builtIns _ _ hmem
  obtain rfl := ChipSpec.primitive.inj hkind
  obtain ⟨found, hfound, hrealizes⟩ := hsane.chips _ _ hmem
  obtain rfl : found = chip := Option.some.inj (hfound.symm.trans hchipBefore)
  have hsame : kind.answer found.held (after.read site.inputs) =
      kind.answer found.held (before.read site.inputs) :=
    Primitive.answer_map_congr hrealizes hlength fun place input =>
      hinputs site kind hgate node hout hstill place input
  rw [hsame, houtputs site _ hgate node hout hstill]
  exact h site kind found hgate hchipBefore position node hnode hstill

/-- What is firm stays firm if neither the outputs nor the nodes below them change. -/
theorem Firm.congr (fabric : Fabric root draft) (hlevel : Leveled root draft.netlist level)
    (hsane : Sane root draft before) {bound : Nat} (h : Firm level bound inside before)
    (hinside : ∀ gate, inside gate → gate ∈ root.all) (hchips : after.chips = before.chips)
    (houtputs : ∀ site chip, inside (.builtIn site chip) → ∀ node ∈ site.outputs,
      level node < bound → after.value node = before.value node)
    (hinputs : ∀ node, level node + 1 < bound → after.value node = before.value node) :
    Firm level bound inside after := by
  refine Agrees.congr fabric hsane h hinside hchips houtputs
    fun site kind hgate node hnode hlt position input hinput hclocked => hinputs input ?_
  have hbelow := hlevel.gates site kind (hinside _ hgate) position input hinput hclocked node hnode
  exact Nat.lt_of_le_of_lt hbelow hlt

namespace Moves

theorem refl (hsane : Sane root draft before) : Moves root draft level inside before before :=
  ⟨hsane, rfl, fun _ _ _ => rfl, fun _ _ _ h => h, fun h => h, fun _ _ _ _ => rfl⟩

theorem mono (h : Moves root draft level inside before after)
    (hsub : ∀ gate, inside gate → other gate) : Moves root draft level other before after where
  sane := h.sane
  chips := h.chips
  frame node hsets houtside := h.frame node hsets fun site chip hgate =>
    houtside site chip (hsub _ hgate)
  flags gate hgate hother := h.flags gate hgate fun hinside => hother (hsub _ hinside)
  root_flag := h.root_flag
  still bound hfirm := h.still bound (hfirm.mono (fun _ _ => hsub _) (Nat.le_refl _))

/-- Evaluating some gates keeps firm what was firm below the same level. -/
theorem keeps_firm (fabric : Fabric root draft) (hlevel : Leveled root draft.netlist level)
    (hsane : Sane root draft before) (h : Moves root draft level inside before after) {bound : Nat}
    (hfirm : Firm level bound inside before) (hother : Firm level bound other before)
    (hmem : ∀ gate, other gate → gate ∈ root.all) : Firm level bound other after := by
  have hsame := h.still bound hfirm
  exact hother.congr fabric hlevel hsane hmem h.chips (fun _ _ _ node _ hlt => hsame node hlt)
    fun node hlt => hsame node (by omega)

/-- Evaluating gates keeps firm what other gates drive one level higher. -/
theorem keeps_firm_apart (fabric : Fabric root draft) (hlevel : Leveled root draft.netlist level)
    (hsane : Sane root draft before) (h : Moves root draft level inside before after) {bound : Nat}
    (hfirm : Firm level bound inside before) (hother : Firm level (bound + 1) other before)
    (hmem : ∀ gate, other gate → gate ∈ root.all) (hinside : ∀ gate, inside gate → gate ∈ root.all)
    (hapart : ∀ gate, other gate → ¬ inside gate) : Firm level (bound + 1) other after := by
  have hsame := h.still bound hfirm
  refine hother.congr fabric hlevel hsane hmem h.chips (fun site chip hgate node hnode _ => ?_)
    fun node hlt => hsame node (by omega)
  apply h.frame node (.inr ⟨site, chip, hmem _ hgate, hnode⟩)
  intro site' chip' hgate' hnode'
  have hsite := fabric.outputs_apart site site' chip chip' node (hmem _ hgate) (hinside _ hgate')
    hnode hnode'
  subst hsite
  have heq : Gate.builtIn site chip = .builtIn site chip' :=
    fabric.distinct.eq (hmem _ hgate) (hinside _ hgate') rfl
  exact hapart _ hgate (heq ▸ hgate')

theorem trans (fabric : Fabric root draft) (hlevel : Leveled root draft.netlist level)
    (hsane : Sane root draft before) (hinside : ∀ gate, inside gate → gate ∈ root.all)
    (h : Moves root draft level inside before middle)
    (h' : Moves root draft level inside middle after) :
    Moves root draft level inside before after where
  sane := h'.sane
  chips := h'.chips.trans h.chips
  frame node hsets houtside := (h'.frame node hsets houtside).trans (h.frame node hsets houtside)
  flags gate hgate hother hdirty := h'.flags gate hgate hother (h.flags gate hgate hother hdirty)
  root_flag hdirty := h.root_flag (h'.root_flag hdirty)
  still bound hfirm node hlt :=
    (h'.still bound (h.keeps_firm fabric hlevel hsane hfirm hfirm hinside) node hlt).trans
      (h.still bound hfirm node hlt)

end Moves

namespace State

@[simp] theorem read_clean (state : State) (index : Nat) (nodes : List Nat) :
    (state.clean index).read nodes = state.read nodes := rfl

@[simp] theorem chip?_clean (state : State) (index gate : Nat) :
    (state.clean index).chip? gate = state.chip? gate := rfl

theorem isDirty_clean (state : State) (index gate : Nat) :
    (state.clean index).isDirty gate = (state.isDirty gate && decide (gate ≠ index)) :=
  FlagSet.contains_erase _ _ _

end State

theorem Sane.clean (h : Sane root draft before) (index : Nat) :
    Sane root draft (before.clean index) where
  values_size := h.values_size
  dirty_size := (FlagSet.size_erase _ _).trans h.dirty_size
  chips := h.chips
  holds := h.holds
  rest := h.rest

theorem moves_clean (fabric : Fabric root draft) (hsane : Sane root draft before) {gate : Gate}
    (hgate : gate ∈ root.all) (hinside : inside gate) :
    Moves root draft level inside before (before.clean gate.index) where
  sane := hsane.clean _
  chips := rfl
  frame _ _ _ := rfl
  flags found hfound houtside hdirty := by
    rw [State.isDirty_clean, hdirty, Bool.true_and, decide_eq_true_eq]
    intro hindex
    rw [fabric.distinct.eq hfound hgate hindex] at houtside
    exact houtside hinside
  root_flag hdirty := by
    rw [State.isDirty_clean, Bool.and_eq_true] at hdirty
    exact hdirty.1
  still _ _ _ _ := rfl

theorem Honest.clean (h : Honest root opened before) (index : Nat) :
    Honest root (fun gate => opened gate ∨ gate = index) (before.clean index) := by
  intro gate hgate hopened hclean
  rw [not_or] at hopened
  rw [State.isDirty_clean, Bool.and_eq_false_iff, decide_eq_false_iff_not, not_not] at hclean
  have hcalm := h gate hgate hopened.1 (hclean.resolve_right hopened.2)
  cases gate with
  | builtIn site chip => exact hcalm
  | composite site internals parts =>
    intro part hpart
    rw [State.isDirty_clean, hcalm part hpart, Bool.false_and]

def Around (root : Gate) (opened : Nat → Prop) (state : State) (inner : Gate) : Prop :=
  ∀ gate ∈ root.all, inner ∈ gate.all →
    gate = inner ∨ opened gate.index ∨ state.isDirty gate.index = true

/-- Once a gate is opened, all gates around it are open or dirty, and so is itself. -/
theorem Around.covered {inner : Gate} (h : Around root opened before inner) :
    Covered root (fun gate => opened gate ∨ gate = inner.index) before inner := by
  intro gate hgate hmem
  rcases h gate hgate hmem with rfl | hopen | hdirty
  · exact .inl (.inr rfl)
  · exact .inl (.inl hopen)
  · exact .inr hdirty

/-- Once a gate is cleaned and opened, all gates around it are open or dirty, and so is itself. -/
theorem Around.clean {inner : Gate} (h : Around root opened before inner) :
    Covered root (fun gate => opened gate ∨ gate = inner.index) (before.clean inner.index)
      inner := by
  intro gate hgate hmem
  by_cases hsame : gate.index = inner.index
  · exact .inl (.inr hsame)
  · rcases h gate hgate hmem with rfl | hopen | hdirty
    · exact absurd rfl hsame
    · exact .inl (.inl hopen)
    · right
      rw [State.isDirty_clean, hdirty, Bool.true_and, decide_eq_true_eq]
      exact hsame

/-- What becomes of a state when a built in gate is cleaned and shows what its chip answers. -/
structure Answered (root : Gate) (draft : Draft) (site : Site) (kind : Primitive) (chip : Chip)
    (before after : State) : Prop where
  gate_mem : .builtIn site (.primitive kind) ∈ root.all
  chip_eq : before.chip? site.index = some chip
  realizes : chip.Realizes kind
  written : Written root draft site.outputs (kind.answer chip.held (before.read site.inputs))
    (before.clean site.index) after

theorem exists_answered (fabric : Fabric root draft) (hsane : Sane root draft before) {site : Site}
    {spec : ChipSpec} (hgate : .builtIn site spec ∈ root.all) : ∃ kind chip,
      spec = .primitive kind ∧ Answered root draft site kind chip before
        ((before.clean site.index).respond draft.netlist site) := by
  obtain ⟨kind, rfl, -, -, hlength, hnodup⟩ := fabric.builtIns _ _ hgate
  obtain ⟨chip, hchip, hrealizes⟩ := hsane.chips _ _ hgate
  refine ⟨kind, chip, rfl, hgate, hchip, hrealizes, ?_⟩
  have hanswer := hrealizes.respond_eq (before.read site.inputs) (before.read site.outputs)
    (by rw [State.length_read, hlength])
  simp only [State.respond, State.chip?_clean, hchip, State.read_clean, hanswer]
  refine written_write fabric (hsane.clean site.index)
    (fun node hnode => .inr ⟨site, _, hgate, hnode⟩) hnodup ?_
  rw [hrealizes.length_answer, hlength]

namespace Answered

variable {site : Site} {kind : Primitive} {chip : Chip}

theorem chip_after (h : Answered root draft site kind chip before after) :
    after.chip? site.index = some chip := by
  rw [State.chip?, h.written.chips]
  exact h.chip_eq

theorem refreshes (fabric : Fabric root draft)
    (h : Answered root draft site kind chip before after) :
    Refreshes draft.netlist (.builtIn site (.primitive kind)) before after := by
  obtain ⟨_, hkind, -, -, hlength, -⟩ := fabric.builtIns _ _ h.gate_mem
  obtain rfl := ChipSpec.primitive.inj hkind
  have htakes := h.written.takes
  rw [← h.realizes.respond_eq _ (before.read site.outputs) (by rw [State.length_read, hlength])]
    at htakes
  have hafter : after = { before.clean site.index with signals := after.signals } :=
    congrArg (fun chips => State.mk after.signals chips) h.written.chips
  rw [hafter]
  exact .builtIn h.chip_eq htakes

/-- The answer stays right, since the inputs that it depends on lie below the outputs. -/
theorem answer_eq (fabric : Fabric root draft) (hlevel : Leveled root draft.netlist level)
    (h : Answered root draft site kind chip before after) :
    kind.answer chip.held (after.read site.inputs) =
      kind.answer chip.held (before.read site.inputs) := by
  obtain ⟨_, hkind, -, hlength, -, -⟩ := fabric.builtIns _ _ h.gate_mem
  obtain rfl := ChipSpec.primitive.inj hkind
  apply Primitive.answer_map_congr h.realizes hlength
  intro position input hinput hclocked
  refine h.written.still level hlevel.links (level input + 1) (fun place node hnode hlt => ?_) input
    (Nat.lt_succ_self _)
  have hbelow := hlevel.gates site kind h.gate_mem position input hinput hclocked node
    (List.mem_of_getElem? hnode)
  omega

theorem root_flag (fabric : Fabric root draft) (h : Answered root draft site kind chip before after)
    (hdirty : after.isDirty root.index = true) :
    (before.clean site.index).isDirty root.index = true :=
  h.written.root_flag (fun node hnode => fabric.entries_apart site _ node h.gate_mem hnode) hdirty

theorem moves (fabric : Fabric root draft) (hlevel : Leveled root draft.netlist level)
    (hsane : Sane root draft before) (h : Answered root draft site kind chip before after) :
    Moves root draft level (· = .builtIn site (.primitive kind)) before after := by
  have hclean : Moves root draft level (· = .builtIn site (.primitive kind)) before
      (before.clean site.index) := moves_clean fabric hsane h.gate_mem rfl
  refine ⟨h.written.sane, h.written.chips, ?_, ?_,
    fun hdirty => hclean.root_flag (h.root_flag fabric hdirty), ?_⟩
  · intro node hsets houtside
    exact h.written.frame node hsets (houtside site _ rfl)
  · intro gate hmem houtside hdirty
    exact h.written.flags _ (hclean.flags gate hmem houtside hdirty)
  · intro bound hfirm node hlt
    refine h.written.still level hlevel.links bound
      (fun position output houtput hbelow => ?_) node hlt
    exact hfirm site kind chip rfl h.chip_eq position output houtput hbelow

theorem honest (fabric : Fabric root draft) (hhonest : Honest root opened before)
    (haround : Around root opened before (.builtIn site (.primitive kind)))
    (h : Answered root draft site kind chip before after) : Honest root opened after := by
  have hsite : ∀ site' chip', .builtIn site' chip' ∈ root.all →
      (∃ node ∈ site.outputs, node ∈ site'.outputs) →
      Gate.builtIn site' chip' = .builtIn site (.primitive kind) := by
    intro site' chip' hgate' hexists
    obtain ⟨node, hnode, hnode'⟩ := hexists
    have hsame := fabric.outputs_apart site site' _ _ node h.gate_mem hgate' hnode hnode'
    exact fabric.distinct.eq hgate' h.gate_mem
      (by rw [Gate.index, Gate.index, Gate.site, Gate.site, hsame])
  have hopen := h.written.honest _ (hhonest.clean site.index) fun site' chip' hgate' hshared => by
    rw [hsite site' chip' hgate' hshared]
    exact haround.clean
  intro gate hmem hopened hclean
  by_cases hindex : gate.index = site.index
  · obtain rfl := fabric.distinct.eq hmem h.gate_mem hindex
    -- a gate that has changed its own inputs would be dirty
    have hread : after.read site.inputs = before.read site.inputs := by
      apply State.read_congr
      intro node hnode
      by_contra hchanged
      rw [h.written.heard _ h.gate_mem node hnode hchanged] at hclean
      cases hclean
    rw [State.Calm, settled_iff fabric h.gate_mem h.chip_after h.realizes, hread]
    exact h.written.written
  · exact hopen gate hmem (by rw [not_or]; exact ⟨hopened, hindex⟩) hclean

theorem firm (fabric : Fabric root draft) (hlevel : Leveled root draft.netlist level)
    (h : Answered root draft site kind chip before after) (bound : Nat) :
    Firm level bound (· = .builtIn site (.primitive kind)) after := by
  intro site' kind' chip' hsame hchip position node hnode _
  simp only [Gate.builtIn.injEq, ChipSpec.primitive.injEq] at hsame
  obtain ⟨rfl, rfl⟩ := hsame
  obtain rfl := Option.some.inj (h.chip_after.symm.trans hchip)
  rw [h.answer_eq fabric hlevel]
  exact h.written.written position node hnode

end Answered

theorem refreshed_builtIn (fabric : Fabric root draft) (hlevel : Leveled root draft.netlist level)
    (hsane : Sane root draft before) (hhonest : Honest root opened before) {site : Site}
    {spec : ChipSpec} (hgate : .builtIn site spec ∈ root.all)
    (haround : Around root opened before (.builtIn site spec)) :
    Refreshed root draft level opened (· = .builtIn site spec) 1 before
        ((before.clean site.index).respond draft.netlist site) ∧
      (((before.clean site.index).respond draft.netlist site).isDirty root.index = true →
        (before.clean site.index).isDirty root.index = true) ∧
      Refreshes draft.netlist (.builtIn site spec) before
        ((before.clean site.index).respond draft.netlist site) := by
  obtain ⟨kind, chip, rfl, hanswered⟩ := exists_answered fabric hsane hgate
  exact ⟨⟨hanswered.moves fabric hlevel hsane, hanswered.honest fabric hhonest haround,
    fun bound _ => hanswered.firm fabric hlevel (bound + 1)⟩, hanswered.root_flag fabric,
    hanswered.refreshes fabric⟩

end ClockedLogic
