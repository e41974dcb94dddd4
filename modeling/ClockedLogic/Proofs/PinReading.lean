import ClockedLogic.Proofs.PinSettling
import ClockedLogic.Proofs.WireAgreement

/-!
Reading the pins of a circuit at all depths. The gates stand where the parts of the component do,
so the values of their nodes are values of pins. At rest these are settled: whether pins share nodes
or each has one of its own makes no difference for that. Nodes that parts drive have no bits that
their pins have not.
-/

namespace ClockedLogic

namespace Gate

def pinValues (gate : Gate) (value : Nat → Word) : PinValues := fun path role =>
  match gate.descend? path with
  | some inner => (inner.nodesOf role).map value
  | none => []

def stores (gate : Gate) (held : Nat → Store) : Stores := fun path =>
  match gate.descend? path with
  | some inner => held inner.index
  | none => .nothing

variable {gate inner part : Gate} {value : Nat → Word} {held : Nat → Store}

theorem pin_pinValues {path : List Nat} (hinner : gate.descend? path = some inner) {role : PinRole}
    {index node : Nat} (hnode : (inner.nodesOf role)[index]? = some node) :
    (gate.pinValues value).pin path role index = value node := by
  simp [PinValues.pin, pinValues, hinner, hnode]

theorem descend?_cons {position : Nat} (h : gate.parts[position]? = some part) (path : List Nat) :
    gate.descend? (position :: path) = part.descend? path := by
  rw [descend?, h]

theorem beyond_pinValues {position : Nat} (h : gate.parts[position]? = some part) :
    beyond [position] (gate.pinValues value) = part.pinValues value := by
  funext path role
  simp only [beyond, List.cons_append, List.nil_append, pinValues, descend?_cons h]

theorem beyond_stores {position : Nat} (h : gate.parts[position]? = some part) :
    beyond [position] (gate.stores held) = part.stores held := by
  funext path
  simp only [beyond, List.cons_append, List.nil_append, stores, descend?_cons h]

/-- Whether all primitives inside a gate show the answers to their inputs. -/
def Answers (gate : Gate) (held : Nat → Store) (value : Nat → Word) : Prop :=
  ∀ site kind, .builtIn site (.primitive kind) ∈ gate.all → kind.CanHold (held site.index) ∧
    kind.answer (held site.index) (site.inputs.map value) = site.outputs.map value

theorem Answers.inside (h : gate.Answers held value) (hinner : inner ∈ gate.all) :
    inner.Answers held value :=
  fun site kind hgate => h site kind (mem_all_trans hgate hinner)

/-- Whether the outputs of all primitives inside a gate have no bits that their pins have not. -/
def OutputsFit (gate : Gate) (value : Nat → Word) : Prop :=
  ∀ site kind, .builtIn site (.primitive kind) ∈ gate.all → ∀ (index node : Nat) (pin : Pin),
    kind.component.outputs[index]? = some pin → site.outputs[index]? = some node →
    Word.fits pin.width (value node) = true

theorem OutputsFit.inside (h : gate.OutputsFit value) (hinner : inner ∈ gate.all) :
    inner.OutputsFit value :=
  fun site kind hgate => h site kind (mem_all_trans hgate hinner)

theorem Answers.outputsFit (h : gate.Answers held value) : gate.OutputsFit value := by
  intro site kind hgate index node pin hpin hnode
  obtain ⟨hhold, hanswer⟩ := h site kind hgate
  have hfits := Primitive.fits_answer_pin hhold (site.inputs.map value) hpin
  rw [hanswer] at hfits
  simpa [hnode] using hfits

end Gate

namespace Component

variable {sharing : Bool} {component inner : Component} {interface : Interface}
  {internals : List Pin} {parts : List (Part Component)} {dependencies : Digraph Vertex}
  {inputs outputs : List Nat} {cursor : Cursor}

/-- The component at the end of a path has been placed at the end of the same path. -/
theorem exists_descend? {path : List Nat} (h : component.descend? path = some inner)
    (inputs outputs : List Nat) (cursor : Cursor) : ∃ inputs' outputs' cursor',
    (place sharing component inputs outputs cursor).result.descend? path =
      some (place sharing inner inputs' outputs' cursor').result := by
  induction path generalizing component inputs outputs cursor with
  | nil =>
    obtain rfl := Option.some.inj h
    exact ⟨inputs, outputs, cursor, rfl⟩
  | cons position path ih =>
    obtain ⟨part, hpart, h⟩ := exists_part_of_descend? h
    cases component with
    | builtIn => simp [Component.parts] at hpart
    | composite interface internals parts dependencies =>
      obtain ⟨placed, hmem, rfl, hgate⟩ := @exists_placed sharing interface internals parts
        dependencies inputs outputs cursor position part hpart
      rw [Gate.descend?_cons hgate, (mem_placeEach hmem).2.1.gate_eq]
      exact ih h _ _ _

theorem descend?_place_eq_none {path : List Nat} (h : component.descend? path = none)
    (inputs outputs : List Nat) (cursor : Cursor) :
    (place sharing component inputs outputs cursor).result.descend? path = none := by
  induction path generalizing component inputs outputs cursor with
  | nil => cases h
  | cons position path ih =>
    cases component with
    | builtIn interface chip =>
      rw [place]
      rfl
    | composite interface internals parts dependencies =>
      cases hpart : parts[position]? with
      | none =>
        have hlength := congrArg List.length
          (@part_innerParts sharing internals parts inputs outputs cursor)
        rw [List.length_map] at hlength
        have hgate : (place sharing (.composite interface internals parts dependencies) inputs
            outputs cursor).result.parts[position]? = none := by
          rw [parts_place_composite, List.getElem?_eq_none_iff, List.length_map, hlength]
          exact List.getElem?_eq_none_iff.mp hpart
        rw [Gate.descend?, hgate]
      | some part =>
        obtain ⟨placed, hmem, rfl, hgate⟩ := @exists_placed sharing interface internals parts
          dependencies inputs outputs cursor position part hpart
        rw [Gate.descend?_cons hgate, (mem_placeEach hmem).2.1.gate_eq]
        exact ih ((descend?_cons hpart path).symm.trans h) _ _ _

end Component

open Component

namespace Spot

variable {drivers : Driver → Prop} {entries : Nat → Prop} {sharing : Bool} {component : Component}
  {interface : Interface} {internals : List Pin} {parts : List (Part Component)}
  {dependencies : Digraph Vertex} {inputs outputs : List Nat} {cursor : Cursor}
  {width : Nat → Nat} {value : Nat → Word} {held : Nat → Store} {bound : Nat}

/-- A whole wire joins pins of one width. -/
theorem width_eq_of_isWhole {wire : Wire} {part : Component} {pinsOf : PinRole → List Pin}
    (h : wire.Fits part pinsOf) (hwhole : wire.isWhole = true) {role : PinRole} {index : Nat}
    (howner : wire.owner = .pin role index) :
    ∃ pin far, (part.pinsOf wire.partRole)[wire.partIndex]? = some pin ∧
      (pinsOf role)[index]? = some far ∧ pin.width = far.width := by
  simp only [Wire.isWhole, Bool.and_eq_true, Option.isNone_iff_eq_none] at hwhole
  cases h with
  | tied _ _ hconstant => rcases hconstant with rfl | rfl <;> cases howner
  | read hpin _ _ hfar _ hwidth | drive hpin _ _ hfar _ hwidth =>
    obtain ⟨rfl, rfl⟩ := Endpoint.pin.inj howner
    obtain ⟨hpartBits, hownerBits⟩ := hwhole
    simp only at hpartBits hownerBits
    subst hpartBits hownerBits
    exact ⟨_, _, hpin, hfar, hwidth⟩

/-- Nodes that the parts of a component drive have no bits that their pins have not. -/
theorem fits_driven (h : Spot drivers entries sharing component inputs outputs cursor)
    (hwired : WellWired component)
    (hhoused : ∀ gate ∈ (place sharing component inputs outputs cursor).result.all,
      Housed width bound gate) (hcarried : Carried drivers entries width value)
    (houtputs : (place sharing component inputs outputs cursor).result.OutputsFit value)
    {role : PinRole} (hrole : role ≠ .input) {index node : Nat} {pin : Pin}
    (hpin : (component.pinsOf role)[index]? = some pin)
    (hnode : ((place sharing component inputs outputs cursor).result.nodesOf role)[index]? =
      some node) : Word.fits pin.width (value node) = true := by
  induction hwired generalizing inputs outputs cursor role index node pin with
  | primitive kind =>
    cases role with
    | input => exact absurd rfl hrole
    | internal => cases hpin
    | output =>
      rw [Primitive.component, place] at houtputs hnode
      exact houtputs _ kind (List.mem_singleton_self _) index node pin hpin hnode
  | @composite interface internals parts dependencies hparts hwiring ih =>
    rw [nodesOf_place_composite, ← Scope.node?_pin] at hnode
    rcases wire_of_driver_pin h.fitted_parts h.fitting h.seat h.owned hrole hnode with
      ⟨placed, hplaced, wire, hwire, hout, howner, hwhole, hsource⟩ | ⟨hentry, hdrivers⟩
    · obtain ⟨hmem, hmade, -⟩ := mem_placeEach hplaced
      obtain ⟨source, far, hsourcePin, hfar, hwidth⟩ :=
        width_eq_of_isWhole (h.fitting.fits _ hmem _ hwire) hwhole howner
      obtain rfl : far = pin := Option.some.inj (hfar.symm.trans hpin)
      rw [hout] at hsourcePin
      rw [← hwidth]
      have hinside : ∀ gate ∈ placed.gate.result.all, gate ∈ (place sharing
          (.composite interface internals parts dependencies) inputs outputs cursor).result.all :=
        fun gate hgate => mem_all_of_part hplaced hgate
      have hself := hinside _ (Gate.mem_all_self _)
      rw [hmade.gate_eq] at hinside hself
      refine ih _ hmem (h.part hplaced) (fun gate hgate => hhoused gate (hinside gate hgate))
        (houtputs.inside hself) (show PinRole.output ≠ .input by simp) hsourcePin ?_
      rw [Gate.nodesOf, (isPlaced _ _ _ _ _).outputs_eq]
      exact hsource
    · obtain ⟨hlow, -, found, hfound, -, hnodeWidth⟩ := h.exists_node_owner hhoused hpin
      obtain rfl : found = node := Option.some.inj (hfound.symm.trans hnode)
      refine Word.fits_iff.mpr fun bit hge =>
        hcarried.rest found bit hentry fun driver hdriver hbit => ?_
      obtain ⟨placed, hplaced, wire, hwire, hout, howner, source, -, rfl⟩ :=
        hdrivers driver hdriver hbit.drives
      obtain ⟨role', index', far, howner', -, hfar, hhas⟩ :=
        (h.fitting.fits _ (mem_placeEach hplaced).1 _ hwire).drives hout
      obtain ⟨rfl, rfl⟩ := Endpoint.pin.inj (howner.symm.trans howner')
      obtain rfl : far = pin := Option.some.inj (hfar.symm.trans hpin)
      have hcovers := hbit.2
      rw [spanAt_eq hnodeWidth] at hcovers
      have hlt := hhas.lt_of_covers hlow hcovers
      omega

section Composite

variable (h : Spot drivers entries sharing
    (.composite interface internals parts dependencies) inputs outputs cursor)
  (hwired : WellWired (.composite interface internals parts dependencies))
  (hhoused : ∀ gate ∈ (place sharing (.composite interface internals parts dependencies) inputs
    outputs cursor).result.all, Housed width bound gate)
  (hcarried : Carried drivers entries width value)
  (hanswers : (place sharing (.composite interface internals parts dependencies) inputs outputs
    cursor).result.Answers held value)

include h hwired hhoused hcarried hanswers

theorem joined : Joined (.composite interface internals parts dependencies)
    ((place sharing (.composite interface internals parts dependencies) inputs outputs
      cursor).result.pinValues value) := by
  have hplaced : ∀ (position : Nat) (part : Part Component), parts[position]? = some part →
      ∃ placed ∈ innerParts sharing internals parts inputs outputs cursor, placed.part = part ∧
        placed.gate.result.component = part.component ∧
        (place sharing (.composite interface internals parts dependencies) inputs outputs
          cursor).result.descend? [position] = some placed.gate.result := by
    intro position part hpart
    obtain ⟨placed, hmem, rfl, hgate⟩ := exists_placed hpart
    exact ⟨placed, hmem, rfl, (mem_placeEach hmem).2.1.isPlaced.component_eq,
      Gate.descend?_cons hgate []⟩
  have hself := (isPlaced sharing (.composite interface internals parts dependencies) inputs outputs
    cursor).component_eq
  refine ⟨?_, ?_, ?_, ?_⟩
  · intro position part hpart wire hwire pin hpin role index far howner hfar offset hoffset
    obtain ⟨placed, hmem, rfl, hcomponent, hgate⟩ := hplaced position part hpart
    cases h.agrees hhoused hcarried hmem hwire with
    | joined hpin' hnode howner' hfar' hother _ hbits =>
      obtain ⟨rfl, rfl⟩ := Endpoint.pin.inj (howner'.symm.trans howner)
      rw [hcomponent] at hpin'
      rw [hself] at hfar'
      obtain rfl := Option.some.inj (hpin'.symm.trans hpin)
      obtain rfl := Option.some.inj (hfar'.symm.trans hfar)
      rw [Gate.pin_pinValues hgate hnode, Gate.pin_pinValues rfl hother]
      exact hbits offset hoffset
    | @tied _ _ constant _ _ howner' _ => cases constant <;> cases howner'.symm.trans howner
  · intro position part hpart wire hwire pin hpin constant howner bit hcovers
    obtain ⟨placed, hmem, rfl, hcomponent, hgate⟩ := hplaced position part hpart
    cases h.agrees hhoused hcarried hmem hwire with
    | joined _ _ howner' => cases constant <;> cases howner'.symm.trans howner
    | @tied _ _ constant' hpin' hnode howner' hbits =>
      obtain rfl : constant' = constant := by
        cases constant <;> cases constant' <;> first | rfl | cases howner'.symm.trans howner
      rw [hcomponent] at hpin'
      obtain rfl := Option.some.inj (hpin'.symm.trans hpin)
      rw [Gate.pin_pinValues hgate hnode]
      exact hbits bit hcovers
  · intro position part hpart index pin hpin bit hlt hidle
    obtain ⟨placed, hmem, rfl, -, hgate⟩ := hplaced position part hpart
    have hexists := h.exists_node hhoused hmem (show PinRole.input ≠ .internal by simp) hpin
    obtain ⟨-, -, -, -, node, hnode, -⟩ := hexists
    rw [Gate.pin_pinValues hgate hnode]
    exact h.bit_input_eq_false hhoused hcarried hmem hpin hnode hlt
      fun wire hwire hrole hindex hcovers => absurd hcovers (hidle wire hwire hrole hindex)
  · intro role hrole index pin hpin bit hidle
    obtain ⟨-, -, node, hscope, hnode, -⟩ := h.exists_node_owner hhoused hpin
    rw [Gate.pin_pinValues rfl hnode]
    by_cases hlt : bit < pin.width
    · exact h.bit_driven_eq_false hhoused hcarried hrole hpin hscope hlt hidle
    · have hfits := h.fits_driven hwired hhoused hcarried hanswers.outputsFit hrole hpin hnode
      exact Word.fits_iff.mp hfits bit (Nat.le_of_not_lt hlt)

omit hwired hanswers in
theorem fits_input {placed : PlacedPart}
    (hplaced : placed ∈ innerParts sharing internals parts inputs outputs cursor)
    {position node : Nat} {pin : Pin} (hpin : placed.part.component.inputs[position]? = some pin)
    (hnode : placed.gate.result.inputs[position]? = some node)
    (howner : ∀ role index far other,
      ((Component.composite interface internals parts dependencies).pinsOf role)[index]? =
        some far → (innerScope internals inputs outputs cursor).node? (.pin role index) =
        some other → Word.fits far.width (value other) = true) :
    Word.fits pin.width (value node) = true := by
  obtain ⟨hmem, hmade, -⟩ := mem_placeEach hplaced
  obtain ⟨hpinRole, hpinIndex, hlow, -, found, hfound, hwidth, hcases⟩ :=
    h.exists_node hhoused hplaced (show PinRole.input ≠ .internal by simp) hpin
  obtain rfl : found = node := Option.some.inj (hfound.symm.trans hnode)
  rcases hcases with hshared | ⟨hnew, -⟩
  · obtain ⟨wire, hwire, hrole, hindex, hwhole, hfar, -⟩ := Scope.share?_eq_some hshared
    have hfits := h.fitting.fits _ hmem _ hwire
    obtain ⟨role, index, -, hwireOwner⟩ := hfits.reads (hrole.trans hpinRole) hfar
    obtain ⟨source, far, hsource, hfarPin, hsame⟩ := width_eq_of_isWhole hfits hwhole hwireOwner
    rw [hrole, hindex, hpinRole, hpinIndex] at hsource
    obtain rfl : source = pin := Option.some.inj (hsource.symm.trans hpin)
    rw [hwireOwner] at hfar
    rw [hsame]
    exact howner role index far found hfarPin hfar
  · have hown : placed.inputs.result[position]? = some found := by
      rw [← hmade.isPlaced.inputs_eq]
      exact hnode
    obtain ⟨hentry, hdrivers⟩ := wire_of_driver_input h.fitted_parts h.fitting h.seat h.owned
      hplaced hpin hown hnew
    refine Word.fits_iff.mpr fun bit hge =>
      hcarried.rest found bit hentry fun driver hdriver hbit => ?_
    obtain ⟨wire, hwire, hrole, hindex, statement, hstatement, rfl⟩ :=
      hdrivers driver hdriver hbit.drives
    obtain ⟨joined, hjoined, hhas⟩ := (h.fitting.fits _ hmem _ hwire).exists_input hrole
    rw [hindex] at hjoined
    obtain rfl : joined = pin := Option.some.inj (hjoined.symm.trans hpin)
    have hcovers : (spanAt width found wire.partBits).Covers bit := by
      rcases Scope.statement?_eq_some hstatement with
        ⟨-, other, -, rfl⟩ | ⟨hne, -⟩ | ⟨-, -, rfl⟩
      · exact hbit.2
      · exact absurd hrole hne
      · exact hbit.2
    rw [spanAt_eq hwidth] at hcovers
    have hlt := hhas.lt_of_covers hlow hcovers
    omega

end Composite

theorem length_pinValues (hhoused : ∀ gate ∈
      (place sharing component inputs outputs cursor).result.all, Housed width bound gate)
    (role : PinRole) : ((place sharing component inputs outputs cursor).result.pinValues value []
      role).length = (component.pinsOf role).length := by
  have hhouse := (hhoused _ (Gate.mem_all_self _) role).length_eq
  rw [(isPlaced _ _ _ _ _).component_eq] at hhouse
  rw [hhouse]
  exact List.length_map _

/-- The values of the pins of a component at its place are settled. -/
theorem settled (h : Spot drivers entries sharing component inputs outputs cursor)
    (hwired : WellWired component)
    (hhoused : ∀ gate ∈ (place sharing component inputs outputs cursor).result.all,
      Housed width bound gate) (hcarried : Carried drivers entries width value)
    (hanswers : (place sharing component inputs outputs cursor).result.Answers held value) :
    Settled component ((place sharing component inputs outputs cursor).result.stores held)
      ((place sharing component inputs outputs cursor).result.pinValues value) := by
  have hsizes := @length_pinValues sharing component inputs outputs cursor width value bound hhoused
  induction component using Component.inductionOn generalizing inputs outputs cursor with
  | builtIn interface chip =>
    obtain ⟨kind, rfl⟩ := hwired.exists_primitive
    rw [place] at hanswers hsizes ⊢
    exact .primitive hsizes (hanswers _ kind (List.mem_singleton_self _)).2
  | composite interface internals parts dependencies ih =>
    refine .composite hsizes (h.joined hwired hhoused hcarried hanswers)
      fun position part hpart => ?_
    obtain ⟨placed, hmem, rfl, hgate⟩ := exists_placed hpart
    obtain ⟨hmemPart, hmade, -⟩ := mem_placeEach hmem
    have hinside : ∀ gate ∈ placed.gate.result.all, gate ∈ (place sharing
        (.composite interface internals parts dependencies) inputs outputs cursor).result.all :=
      fun gate hgate => mem_all_of_part hmem hgate
    rw [Gate.beyond_stores hgate, Gate.beyond_pinValues hgate]
    rw [hmade.gate_eq] at hinside ⊢
    have hhousedPart := fun gate hgate => hhoused gate (hinside gate hgate)
    exact ih _ hmemPart (h.part hmem) (hwired.part hmemPart) hhousedPart
      (hanswers.inside (hinside _ (Gate.mem_all_self _))) (length_pinValues hhousedPart)

/-- If the inputs of a component fit, so do all pins at all depths. -/
theorem fits_pins (h : Spot drivers entries sharing component inputs outputs cursor)
    (hwired : WellWired component)
    (hhoused : ∀ gate ∈ (place sharing component inputs outputs cursor).result.all,
      Housed width bound gate) (hcarried : Carried drivers entries width value)
    (houtputs : (place sharing component inputs outputs cursor).result.OutputsFit value)
    (hinputs : ∀ (index node : Nat) (pin : Pin), component.inputs[index]? = some pin →
      inputs[index]? = some node → Word.fits pin.width (value node) = true) {path : List Nat}
    {inner : Component} (hinner : component.descend? path = some inner) {role : PinRole}
    {index : Nat} {pin : Pin} (hpin : (inner.pinsOf role)[index]? = some pin) :
    Word.fits pin.width (((place sharing component inputs outputs cursor).result.pinValues
      value).pin path role index) = true := by
  induction path generalizing component inputs outputs cursor with
  | nil =>
    obtain rfl := Option.some.inj hinner
    have hhouse := (hhoused _ (Gate.mem_all_self _) role).length_eq
    rw [(isPlaced _ _ _ _ _).component_eq] at hhouse
    have hlt := (List.getElem?_eq_some_iff.mp hpin).1
    obtain ⟨node, hnode⟩ : ∃ node,
        ((place sharing component inputs outputs cursor).result.nodesOf role)[index]? = some node :=
      ⟨_, List.getElem?_eq_getElem (hhouse ▸ hlt)⟩
    rw [Gate.pin_pinValues rfl hnode]
    by_cases hrole : role = .input
    · subst hrole
      rw [Gate.nodesOf, (isPlaced _ _ _ _ _).inputs_eq] at hnode
      exact hinputs index node pin hpin hnode
    · exact h.fits_driven hwired hhoused hcarried houtputs hrole hpin hnode
  | cons position path ih =>
    cases component with
    | builtIn => cases hinner
    | composite interface internals parts dependencies =>
      obtain ⟨part, hpart, hinner⟩ := exists_part_of_descend? hinner
      obtain ⟨placed, hmem, rfl, hgate⟩ := @exists_placed sharing interface internals parts
        dependencies inputs outputs cursor position part hpart
      obtain ⟨hmemPart, hmade, -⟩ := mem_placeEach hmem
      have hinside : ∀ gate ∈ placed.gate.result.all, gate ∈ (place sharing
          (.composite interface internals parts dependencies) inputs outputs cursor).result.all :=
        fun gate hgate => mem_all_of_part hmem hgate
      have hpartInputs : ∀ (place node : Nat) (pin : Pin),
          placed.part.component.inputs[place]? = some pin →
          placed.inputs.result[place]? = some node → Word.fits pin.width (value node) = true := by
        intro place node pin hpin hnode
        rw [← hmade.isPlaced.inputs_eq] at hnode
        refine h.fits_input hhoused hcarried hmem hpin hnode
          fun role index far other hfar hother => ?_
        by_cases hrole : role = .input
        · subst hrole
          exact hinputs index other far hfar hother
        · rw [Scope.node?_pin, ← nodesOf_place_composite] at hother
          exact h.fits_driven hwired hhoused hcarried houtputs hrole hfar hother
      have hbeyond : ((place sharing (.composite interface internals parts dependencies) inputs
          outputs cursor).result.pinValues value).pin (position :: path) role index =
          (placed.gate.result.pinValues value).pin path role index := by
        rw [← Gate.beyond_pinValues hgate]
        rfl
      rw [hbeyond]
      rw [hmade.gate_eq] at hinside ⊢
      exact ih (h.part hmem) (hwired.part hmemPart)
        (fun gate hgate => hhoused gate (hinside gate hgate))
        (houtputs.inside (hinside _ (Gate.mem_all_self _))) hpartInputs hinner

end Spot
end ClockedLogic
