import ClockedLogic.Proofs.BlueprintWiring
import ClockedLogic.Proofs.Commands

/-!
Settled assignments of values to nodes. What the inputs carry and what the primitives hold leaves
one assignment only in which links, constants and primitives agree, since every node has a level. A
circuit at rest shows this assignment.
-/

namespace ClockedLogic

structure Design where
  root : Gate
  netlist : Netlist
  statements : List Statement

namespace Design

/-- Whether an assignment of values to all nodes is settled, for values at the inputs and for what
the primitives hold, by the index of the gate. -/
structure Settles (design : Design) (inputs : Nat → Word) (held : Nat → Store)
    (valuation : Nat → Word) : Prop where
  entries : ∀ node ∈ design.root.inputs, valuation node = inputs node
  links : ∀ source link, design.netlist.Leads source link → ∀ bit, link.targetBits.Covers bit →
    (valuation link.target).getLsbD bit = (valuation source).getLsbD (link.sourceBit bit)
  ones : ∀ node bit, IsRaised design.statements design.netlist.width node bit →
    (valuation node).getLsbD bit = true
  /-- What nothing is connected to. -/
  zeros : ∀ node bit, ¬ design.netlist.IsCopied node bit →
    ¬ IsRaised design.statements design.netlist.width node bit → ¬ design.root.Sets node →
    (valuation node).getLsbD bit = false
  answers : ∀ site kind, .builtIn site (.primitive kind) ∈ design.root.all →
    kind.answer (held site.index) (site.inputs.map valuation) = site.outputs.map valuation

structure IsPlaced (design : Design) (draft : Draft) : Prop where
  netlist_eq : design.netlist = draft.netlist
  fabric : Fabric design.root draft
  raised : ∀ node bit, bitOf draft.values node bit = true ↔
    IsRaised design.statements design.netlist.width node bit

variable {design : Design} {draft : Draft} {inputs inputs' : Nat → Word} {held held' : Nat → Store}
  {valuation valuation' : Nat → Word}

/-- Settled assignments agree on the outputs of a primitive if they agree on the inputs that its
answer depends on. -/
theorem Settles.output_eq (h : design.Settles inputs held valuation)
    (h' : design.Settles inputs' held' valuation') {site : Site} {kind : Primitive}
    (hgate : .builtIn site (.primitive kind) ∈ design.root.all)
    (hlength : site.inputs.length = kind.component.inputs.length)
    (hheld : held site.index = held' site.index)
    (hkind : ∃ chip : Chip, chip.Realizes kind ∧ chip.held = held site.index)
    (hinputs : ∀ (position node : Nat), site.inputs[position]? = some node →
      kind.component.isInputClocked position = false → valuation node = valuation' node) :
    ∀ node ∈ site.outputs, valuation node = valuation' node := by
  obtain ⟨chip, hrealizes, hchip⟩ := hkind
  have hsame : kind.answer (held site.index) (site.inputs.map valuation) =
      kind.answer (held site.index) (site.inputs.map valuation') := by
    rw [← hchip]
    exact Primitive.answer_map_congr hrealizes hlength hinputs
  rw [h.answers site kind hgate, hheld, h'.answers site kind hgate] at hsame
  exact List.map_inj_left.mp hsame

theorem Settles.unique (hplaced : design.IsPlaced draft) (h : design.Settles inputs held valuation)
    (h' : design.Settles inputs' held' valuation')
    (hinputs : ∀ node ∈ design.root.inputs, inputs node = inputs' node)
    (hheld : ∀ site kind, .builtIn site (.primitive kind) ∈ design.root.all →
      held site.index = held' site.index ∧
        ∃ chip : Chip, chip.Realizes kind ∧ chip.held = held site.index) :
    valuation = valuation' := by
  obtain ⟨level, hlevel⟩ := hplaced.fabric.levels
  rw [← hplaced.netlist_eq] at hlevel
  funext node
  -- on the level of the node, since all that its value depends on lies below
  induction hn : level node using Nat.strongRecOn generalizing node with
  | ind n ih =>
    subst hn
    by_cases hsets : design.root.Sets node
    · rcases hsets with hentry | ⟨site, spec, hgate, hout⟩
      · rw [h.entries node hentry, h'.entries node hentry, hinputs node hentry]
      · obtain ⟨kind, rfl, -, hlength, -⟩ := hplaced.fabric.builtIns _ _ hgate
        obtain ⟨hsame, hkind⟩ := hheld site kind hgate
        refine h.output_eq h' hgate hlength hsame hkind (fun position input hinput hclocked => ?_)
          node hout
        exact ih _ (hlevel.gates site kind hgate position input hinput hclocked node hout) input rfl
    · refine BitVec.eq_of_getLsbD_eq fun bit _ => ?_
      by_cases hcopied : design.netlist.IsCopied node bit
      · obtain ⟨source, link, hlink, rfl, hcovers⟩ := hcopied
        rw [h.links source link hlink bit hcovers, h'.links source link hlink bit hcovers,
          ih _ (hlevel.links source link hlink) source rfl]
      · by_cases hraised : IsRaised design.statements design.netlist.width node bit
        · rw [h.ones node bit hraised, h'.ones node bit hraised]
        · rw [h.zeros node bit hcopied hraised hsets, h'.zeros node bit hcopied hraised hsets]

end Design

/-- At rest every primitive shows the answer to its inputs. -/
theorem Sane.answer_eq {root : Gate} {draft : Draft} {state : State} (hsane : Sane root draft state)
    (fabric : Fabric root draft) (hrest : state.AtRest root) {site : Site} {kind : Primitive}
    (hgate : .builtIn site (.primitive kind) ∈ root.all) :
    kind.answer (state.held site.index) (site.inputs.map state.value) =
      site.outputs.map state.value := by
  obtain ⟨_, hkind, -, -, hlength, -⟩ := fabric.builtIns _ _ hgate
  obtain rfl := ChipSpec.primitive.inj hkind
  obtain ⟨chip, hchip, hrealizes⟩ := hsane.chips site kind hgate
  have hsettled := (hrest _ hgate).2 chip hchip
  rw [hrealizes.respond_eq _ _ (by rw [State.length_read, hlength])] at hsettled
  simp only [State.held, hchip]
  exact hsettled

namespace Design

variable {design : Design} {draft : Draft}

theorem IsPlaced.settles (hplaced : design.IsPlaced draft) {state : State}
    (hsane : Sane design.root draft state) (hrest : state.AtRest design.root) :
    design.Settles state.value state.held state.value where
  entries _ _ := rfl
  links source link hlink bit hcovers := by
    rw [hplaced.netlist_eq] at hlink
    exact hsane.holds source link hlink bit hcovers
  ones node bit hraised := by
    have hone := (hplaced.raised node bit).mpr hraised
    obtain ⟨hcopied, hsets⟩ := hplaced.fabric.ones_apart node bit hone
    exact (hsane.rest node bit hcopied hsets).trans hone
  zeros node bit hcopied hraised hsets := by
    rw [hplaced.netlist_eq] at hcopied
    refine (hsane.rest node bit hcopied hsets).trans ?_
    rw [Bool.eq_false_iff]
    exact fun hone => hraised ((hplaced.raised node bit).mp hone)
  answers _ _ hgate := hsane.answer_eq hplaced.fabric hrest hgate

/-- What the gates of a sane state hold is what chips of their primitives can hold. -/
theorem exists_realizes {root : Gate} {state : State} (hsane : Sane root draft state) {site : Site}
    {kind : Primitive} (hgate : .builtIn site (.primitive kind) ∈ root.all) :
    ∃ chip : Chip, chip.Realizes kind ∧ chip.held = state.held site.index := by
  obtain ⟨chip, hchip, hrealizes⟩ := hsane.chips site kind hgate
  exact ⟨chip, hrealizes, by rw [State.held, hchip]⟩

end Design

def Circuit.design (sharing : Bool) (component : Component) (circuit : Circuit) : Design :=
  ⟨circuit.root, circuit.netlist, (component.placeRoot sharing).statements⟩

namespace Circuit

structure Started (component : Component) (draft : Draft) (initial circuit : Circuit) : Prop where
  ofComponent_eq : ofComponent component = .ok circuit
  isPlaced : (circuit.design true component).IsPlaced draft
  fresh : Fresh circuit.root draft initial.state
  ready : circuit.Ready circuit.root draft
  rested : Rested circuit.root draft initial.state circuit.state

theorem exists_started {component : Component} (h : Standard component) :
    ∃ draft initial circuit, Started component draft initial circuit := by
  obtain ⟨draft, initial, hmade⟩ := exists_made true h.wellWired
  have hready := hmade.ready_place
  have hrested := hmade.ready.rested_eval
  have hroot := hready.root_eq
  refine ⟨draft, initial, _, hmade.place_eq, ⟨hready.netlist_eq, ?_, ?_⟩, ?_, ?_, ?_⟩
  · rw [design, hroot]
    exact hready.fabric
  · intro node bit
    rw [design, hready.netlist_eq]
    exact hmade.raised node bit
  · rw [hroot]
    exact hmade.fresh
  · rw [hroot]
    exact hready
  · rw [hroot]
    exact ⟨hready.sound, hrested.atRest.congr rfl rfl rfl, hrested.chips, hrested.entries⟩

end Circuit

end ClockedLogic
