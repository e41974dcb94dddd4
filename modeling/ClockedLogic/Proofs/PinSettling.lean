import ClockedLogic.Proofs.LowBits

/-!
Settled values of the pins of a component and of its parts at all depths. Both ends of every wire
carry the same bits, whatever no wire drives is clear, and every primitive shows the answer to its
inputs. For what the primitives hold and what the inputs carry, there is one settled assignment at
most; and what an output shows depends on those inputs only from which the wires lead to it, past
clocked inputs of parts.
-/

namespace ClockedLogic

/-- The values of the pins of each role, for the component at the end of a path of positions. -/
abbrev PinValues := List Nat → PinRole → List Word

abbrev Stores := List Nat → Store

/-- What there is at the ends of paths, for paths that start where another one ends. -/
def beyond {α : Type} (path : List Nat) (found : List Nat → α) : List Nat → α :=
  fun rest => found (path ++ rest)

def PinValues.pin (values : PinValues) (path : List Nat) (role : PinRole) (index : Nat) : Word :=
  (values path role).getD index 0

namespace Component

def descend? : List Nat → Component → Option Component
  | [], component => some component
  | position :: path, component =>
    match component.parts[position]? with
    | some part => descend? path part.component
    | none => none

theorem descend?_cons {component : Component} {position : Nat} {part : Part Component}
    (h : component.parts[position]? = some part) (path : List Nat) :
    component.descend? (position :: path) = part.component.descend? path := by
  rw [descend?, h]

/-- A path that leads somewhere starts at a part and goes on from there. -/
theorem exists_part_of_descend? {component inner : Component} {position : Nat} {path : List Nat}
    (h : component.descend? (position :: path) = some inner) :
    ∃ part, component.parts[position]? = some part ∧
      part.component.descend? path = some inner := by
  cases hpart : component.parts[position]? with
  | none =>
    rw [descend?, hpart] at h
    cases h
  | some part => exact ⟨part, rfl, (descend?_cons hpart path).symm.trans h⟩

/-- Whether both ends of every wire of an owner carry the same bits, and there are no other bits. -/
structure Joined (owner : Component) (values : PinValues) : Prop where
  wires : ∀ (position : Nat) (part : Part Component), owner.parts[position]? = some part →
    ∀ wire ∈ part.wires, ∀ pin,
    (part.component.pinsOf wire.partRole)[wire.partIndex]? = some pin →
    ∀ role index far, wire.owner = .pin role index → (owner.pinsOf role)[index]? = some far →
    ∀ offset < (pin.spanOf wire.partBits).width,
      (values.pin [position] wire.partRole wire.partIndex).getLsbD
          ((pin.spanOf wire.partBits).low + offset) =
        (values.pin [] role index).getLsbD ((far.spanOf wire.ownerBits).low + offset)
  constants : ∀ (position : Nat) (part : Part Component), owner.parts[position]? = some part →
    ∀ wire ∈ part.wires, ∀ pin,
    (part.component.pinsOf wire.partRole)[wire.partIndex]? = some pin →
    ∀ constant : Bool, (wire.owner = if constant then .ones else .zeros) →
    ∀ bit, (pin.spanOf wire.partBits).Covers bit →
      (values.pin [position] wire.partRole wire.partIndex).getLsbD bit = constant
  inputs : ∀ (position : Nat) (part : Part Component), owner.parts[position]? = some part →
    ∀ (index : Nat) (pin : Pin), part.component.inputs[index]? = some pin → ∀ bit < pin.width,
    (∀ wire ∈ part.wires, wire.partRole = .input → wire.partIndex = index →
      ¬ (pin.spanOf wire.partBits).Covers bit) →
    (values.pin [position] .input index).getLsbD bit = false
  driven : ∀ role, role ≠ .input → ∀ (index : Nat) (pin : Pin),
    (owner.pinsOf role)[index]? = some pin → ∀ bit,
    (∀ part ∈ owner.parts, ∀ wire ∈ part.wires, wire.partRole = .output →
      wire.owner = .pin role index → ¬ (pin.spanOf wire.ownerBits).Covers bit) →
    (values.pin [] role index).getLsbD bit = false

/-- Whether values are settled at all depths of a component, for what its primitives hold. -/
inductive Settled : Component → Stores → PinValues → Prop where
  | primitive {interface : Interface} {kind : Primitive} {stores : Stores} {values : PinValues}
    (hsizes : ∀ role, (values [] role).length =
      ((Component.builtIn interface (.primitive kind)).pinsOf role).length)
    (hanswer : kind.answer (stores []) (values [] .input) = values [] .output) :
    Settled (.builtIn interface (.primitive kind)) stores values
  | composite {interface : Interface} {internals : List Pin} {parts : List (Part Component)}
    {dependencies : Digraph Vertex} {stores : Stores} {values : PinValues}
    (hsizes : ∀ role, (values [] role).length =
      ((Component.composite interface internals parts dependencies).pinsOf role).length)
    (hjoined : Joined (.composite interface internals parts dependencies) values)
    (hparts : ∀ (position : Nat) (part : Part Component), parts[position]? = some part →
      Settled part.component (beyond [position] stores) (beyond [position] values)) :
    Settled (.composite interface internals parts dependencies) stores values

def CanHold (component : Component) (stores : Stores) : Prop :=
  ∀ path (kind : Primitive), component.descend? path = some kind.component →
    kind.CanHold (stores path)

def HoldsSame (component : Component) (stores stores' : Stores) : Prop :=
  ∀ path (kind : Primitive), component.descend? path = some kind.component →
    stores path = stores' path

variable {owner : Component} {values values' : PinValues} {stores stores' : Stores}

theorem CanHold.part (h : owner.CanHold stores) {position : Nat} {part : Part Component}
    (hpart : owner.parts[position]? = some part) :
    part.component.CanHold (beyond [position] stores) := by
  intro path kind hkind
  exact h (position :: path) kind ((descend?_cons hpart path).trans hkind)

theorem HoldsSame.part (h : owner.HoldsSame stores stores') {position : Nat}
    {part : Part Component} (hpart : owner.parts[position]? = some part) :
    part.component.HoldsSame (beyond [position] stores) (beyond [position] stores') := by
  intro path kind hkind
  exact h (position :: path) kind ((descend?_cons hpart path).trans hkind)

end Component

open Component Word

section Fitted

variable {owner : Component} {values values' : PinValues}

theorem Fitted.part (h : Fitted owner) {part : Part Component} (hpart : part ∈ owner.parts) :
    Fitted part.component := by
  cases h with
  | builtIn => cases hpart
  | composite hparts _ => exact hparts part hpart

theorem Fitted.fits (h : Fitted owner) {part : Part Component} (hpart : part ∈ owner.parts)
    {wire : Wire} (hwire : wire ∈ part.wires) : wire.Fits part.component owner.pinsOf := by
  cases h with
  | builtIn => cases hpart
  | composite _ hfitting => exact hfitting.fits part hpart wire hwire

/-- A wire between pins joins as many bits of one as of the other. -/
theorem Fitted.exists_pins (h : Fitted owner) {part : Part Component} (hpart : part ∈ owner.parts)
    {wire : Wire} (hwire : wire ∈ part.wires) {role : PinRole} {index : Nat}
    (howner : wire.owner = .pin role index) :
    ∃ pin far, (part.component.pinsOf wire.partRole)[wire.partIndex]? = some pin ∧
      (owner.pinsOf role)[index]? = some far ∧ far.Has wire.ownerBits ∧ 1 ≤ far.width ∧
      (pin.spanOf wire.partBits).width = (far.spanOf wire.ownerBits).width := by
  have hspans : ∀ (partRole : PinRole) (place : Nat) (found far : Pin) (bits : Option BitSpan),
      (part.component.pinsOf partRole)[place]? = some found →
      (owner.pinsOf role)[index]? = some far →
      found.widthOf bits = far.widthOf wire.ownerBits →
      1 ≤ far.width ∧ (found.spanOf bits).width = (far.spanOf wire.ownerBits).width := by
    intro partRole place found far bits hfound hfar hwidth
    obtain ⟨-, -, hlow, hhigh⟩ := (h.part hpart).pinsInOrder partRole _ _ hfound
    obtain ⟨-, -, hlow', hhigh'⟩ := h.pinsInOrder role _ _ hfar
    exact ⟨hlow', by rw [Pin.width_spanOf hlow hhigh, Pin.width_spanOf hlow' hhigh', hwidth]⟩
  cases h.fits hpart hwire with
  | tied _ _ hconstant =>
    rcases hconstant with rfl | rfl <;> cases howner
  | read hpin _ _ hfar hfarBits hwidth =>
    obtain ⟨rfl, rfl⟩ := Endpoint.pin.inj howner
    exact ⟨_, _, hpin, hfar, hfarBits, hspans .input _ _ _ _ hpin hfar hwidth⟩
  | drive hpin _ _ hfar hfarBits hwidth =>
    obtain ⟨rfl, rfl⟩ := Endpoint.pin.inj howner
    exact ⟨_, _, hpin, hfar, hfarBits, hspans .output _ _ _ _ hpin hfar hwidth⟩

/-- Two assignments agree on a pin that parts drive if they agree on the outputs that drive it. -/
theorem Component.Joined.driven_eq (h : owner.Joined values) (h' : owner.Joined values')
    (hfitted : Fitted owner) {role : PinRole} (hrole : role ≠ .input) {index : Nat} {pin : Pin}
    (hpin : (owner.pinsOf role)[index]? = some pin)
    (hsources : ∀ (position : Nat) (part : Part Component), owner.parts[position]? = some part →
      ∀ wire ∈ part.wires, wire.partRole = .output → wire.owner = .pin role index →
      values.pin [position] .output wire.partIndex =
        values'.pin [position] .output wire.partIndex) :
    values.pin [] role index = values'.pin [] role index := by
  refine BitVec.eq_of_getLsbD_eq fun bit _ => ?_
  by_cases hdriven : ∃ (position : Nat) (part : Part Component),
      owner.parts[position]? = some part ∧ ∃ wire ∈ part.wires,
      wire.partRole = .output ∧ wire.owner = .pin role index ∧
        (pin.spanOf wire.ownerBits).Covers bit
  · obtain ⟨position, part, hpart, wire, hwire, hout, howner, hcovers⟩ := hdriven
    obtain ⟨source, far, hsource, hfar, -, -, heven⟩ :=
      hfitted.exists_pins (List.mem_of_getElem? hpart) hwire howner
    obtain rfl : far = pin := Option.some.inj (hfar.symm.trans hpin)
    obtain ⟨offset, hoffset, rfl⟩ := BitSpan.covers_iff_exists.mp hcovers
    rw [← heven] at hoffset
    rw [← h.wires position part hpart wire hwire source hsource role index far howner hfar offset
      hoffset, ← h'.wires position part hpart wire hwire source hsource role index far howner hfar
      offset hoffset, hout, hsources position part hpart wire hwire hout howner]
  · have hidle : ∀ part ∈ owner.parts, ∀ wire ∈ part.wires, wire.partRole = .output →
        wire.owner = .pin role index → ¬ (pin.spanOf wire.ownerBits).Covers bit := by
      intro part hpart wire hwire hout howner hcovers
      obtain ⟨position, hposition⟩ := List.mem_iff_getElem?.mp hpart
      exact hdriven ⟨position, part, hposition, wire, hwire, hout, howner, hcovers⟩
    rw [h.driven role hrole index pin hpin bit hidle, h'.driven role hrole index pin hpin bit hidle]

/-- Two assignments are alike at an input of a part if they are at the pins that it reads. -/
theorem Component.Joined.input_alike (h : owner.Joined values) (h' : owner.Joined values')
    (hfitted : Fitted owner) {position : Nat} {part : Part Component}
    (hpart : owner.parts[position]? = some part) {index : Nat} {pin : Pin}
    (hpin : part.component.inputs[index]? = some pin)
    (hsources : ∀ wire ∈ part.wires, wire.partRole = .input → wire.partIndex = index →
      ∀ role place far, wire.owner = .pin role place → (owner.pinsOf role)[place]? = some far →
      Alike far.width (values.pin [] role place) (values'.pin [] role place)) :
    Alike pin.width (values.pin [position] .input index) (values'.pin [position] .input index) := by
  intro bit hlt
  by_cases hwired : ∃ wire ∈ part.wires, wire.partRole = .input ∧ wire.partIndex = index ∧
      (pin.spanOf wire.partBits).Covers bit
  · obtain ⟨wire, hwire, hin, hindex, hcovers⟩ := hwired
    have hfound : (part.component.pinsOf wire.partRole)[wire.partIndex]? = some pin := by
      rw [hin, hindex]
      exact hpin
    have htied : ∀ constant : Bool, (wire.owner = if constant then .ones else .zeros) →
        (values.pin [position] .input index).getLsbD bit =
          (values'.pin [position] .input index).getLsbD bit := by
      intro constant howner
      have hbit := h.constants position part hpart wire hwire pin hfound constant howner bit hcovers
      have hbit' :=
        h'.constants position part hpart wire hwire pin hfound constant howner bit hcovers
      rw [hin, hindex] at hbit hbit'
      rw [hbit, hbit']
    cases howner : wire.owner with
    | pin role place =>
      obtain ⟨found, far, hfound', hfar, hhas, hlow, heven⟩ :=
        hfitted.exists_pins (List.mem_of_getElem? hpart) hwire howner
      obtain rfl : found = pin := Option.some.inj (hfound'.symm.trans hfound)
      obtain ⟨offset, hoffset, rfl⟩ := BitSpan.covers_iff_exists.mp hcovers
      have hbit := h.wires position part hpart wire hwire found hfound role place far howner hfar
        offset hoffset
      have hbit' := h'.wires position part hpart wire hwire found hfound role place far howner hfar
        offset hoffset
      rw [hin, hindex] at hbit hbit'
      rw [hbit, hbit']
      refine hsources wire hwire hin hindex role place far howner hfar _ (hhas.lt_of_covers hlow ?_)
      exact BitSpan.covers_iff_exists.mpr ⟨offset, heven ▸ hoffset, rfl⟩
    | ones => exact htied true howner
    | zeros => exact htied false howner
  · have hidle : ∀ wire ∈ part.wires, wire.partRole = .input → wire.partIndex = index →
        ¬ (pin.spanOf wire.partBits).Covers bit :=
      fun wire hwire hin hindex hcovers => hwired ⟨wire, hwire, hin, hindex, hcovers⟩
    rw [h.inputs position part hpart index pin hpin bit hlt hidle,
      h'.inputs position part hpart index pin hpin bit hlt hidle]

end Fitted

namespace Component

variable {component owner : Component} {values values' : PinValues} {stores stores' : Stores}

namespace Settled

theorem length_eq (h : Settled component stores values) (role : PinRole) :
    (values [] role).length = (component.pinsOf role).length := by
  cases h with
  | primitive hsizes _ => exact hsizes role
  | composite hsizes _ _ => exact hsizes role

theorem part (h : Settled owner stores values) {position : Nat} {part : Part Component}
    (hpart : owner.parts[position]? = some part) :
    Settled part.component (beyond [position] stores) (beyond [position] values) := by
  cases h with
  | primitive => simp [parts] at hpart
  | composite _ _ hparts => exact hparts position part hpart

theorem answer {kind : Primitive} (h : Settled kind.component stores values) :
    kind.answer (stores []) (values [] .input) = values [] .output := by
  rw [Primitive.component] at h
  cases h with
  | primitive _ hanswer => exact hanswer

theorem joined {interface : Interface} {internals : List Pin} {parts : List (Part Component)}
    {dependencies : Digraph Vertex}
    (h : Settled (.composite interface internals parts dependencies) stores values) :
    Joined (.composite interface internals parts dependencies) values := by
  cases h with
  | composite _ hjoined _ => exact hjoined

/-- What is settled inside a component is settled on its own. -/
theorem descend (h : Settled component stores values) {path : List Nat} {inner : Component}
    (hinner : component.descend? path = some inner) :
    Settled inner (beyond path stores) (beyond path values) := by
  induction path generalizing component stores values with
  | nil =>
    obtain rfl := Option.some.inj hinner
    exact h
  | cons position path ih =>
    obtain ⟨part, hpart, hinner⟩ := exists_part_of_descend? hinner
    exact ih (h.part hpart) hinner

/-- Two settled assignments have the same values at the pins of a role if they do pin by pin. -/
theorem values_eq (h : Settled component stores values) (h' : Settled component stores' values')
    {role : PinRole} (hpins : ∀ (index : Nat) (pin : Pin),
      (component.pinsOf role)[index]? = some pin →
      values.pin [] role index = values'.pin [] role index) : values [] role = values' [] role := by
  refine List.ext_getElem ((h.length_eq role).trans (h'.length_eq role).symm)
    fun index hlt hlt' => ?_
  have hpin := hpins index _ (List.getElem?_eq_getElem (h.length_eq role ▸ hlt))
  simpa only [PinValues.pin, List.getD_eq_getElem?_getD, List.getElem?_eq_getElem hlt,
    List.getElem?_eq_getElem hlt', Option.getD_some] using hpin

end Settled

/-- Whether two assignments agree at a vertex, for inputs as far as they are wide. -/
def AgreesAt (owner : Component) (values values' : PinValues) : Vertex → Prop
  | .root => True
  | .input index => ∀ pin, owner.inputs[index]? = some pin →
    Alike pin.width (values.pin [] .input index) (values'.pin [] .input index)
  | .output index => values.pin [] .output index = values'.pin [] .output index
  | .internal index => values.pin [] .internal index = values'.pin [] .internal index
  | .part position => ∀ (place : Nat) (part : Part Component),
    owner.parts[place]? = some part → part.position = position →
    values [place] .output = values' [place] .output

theorem AgreesAt.alike {role : PinRole} {index : Nat}
    (h : owner.AgreesAt values values' (role.vertex index)) {pin : Pin}
    (hpin : (owner.pinsOf role)[index]? = some pin) :
    Alike pin.width (values.pin [] role index) (values'.pin [] role index) := by
  cases role with
  | input => exact h pin hpin
  | output => exact .of_eq h
  | internal => exact .of_eq h

/-- Whether the outputs of a component follow from what its primitives hold and from those inputs
that are not clocked. -/
def OutputsFollow (component : Component) : Prop :=
  ∀ {stores stores' : Stores} {values values' : PinValues}, Settled component stores values →
    Settled component stores' values' → component.HoldsSame stores stores' →
    component.CanHold stores →
    (∀ (index : Nat) (pin : Pin), component.inputs[index]? = some pin →
      component.isInputClocked index = false →
      Alike pin.width (values.pin [] .input index) (values'.pin [] .input index)) →
    values [] .output = values' [] .output

theorem outputsFollow_primitive (kind : Primitive) : kind.component.OutputsFollow := by
  intro stores stores' values values' h h' hsame hhold hinputs
  have hstore : stores [] = stores' [] := hsame [] kind rfl
  rw [← h.answer, ← h'.answer, ← hstore]
  exact Primitive.answer_eq_of_alike (hhold [] kind rfl) hinputs

section Composite

variable {interface : Interface} {internals : List Pin} {parts : List (Part Component)}
  {dependencies : Digraph Vertex}
  (hwiring : Wiring interface internals parts
    (Component.composite interface internals parts dependencies).pinsOf)
  (hfitted : Fitted (.composite interface internals parts dependencies))
  (hparts : ∀ part ∈ parts, part.component.OutputsFollow)
  (h : Settled (.composite interface internals parts dependencies) stores values)
  (h' : Settled (.composite interface internals parts dependencies) stores' values')
  (hsame : HoldsSame (.composite interface internals parts dependencies) stores stores')
  (hhold : CanHold (.composite interface internals parts dependencies) stores)

include hwiring hfitted hparts h h' hsame hhold

/-- Settled assignments agree at a vertex if they agree at all inputs that it depends on. -/
theorem agreesAt_of_inputs {vertex : Vertex}
    (hinputs : ∀ index, Relation.ReflTransGen (Dependency parts) (.input index) vertex →
      AgreesAt (.composite interface internals parts dependencies) values values' (.input index)) :
    AgreesAt (.composite interface internals parts dependencies) values values' vertex := by
  obtain ⟨rank, hrank⟩ := hwiring.ranked
  -- on the rank of the vertex, since all that it depends on comes before it
  induction hn : rank vertex using Nat.strongRecOn generalizing vertex with
  | ind n ih =>
    subst hn
    have hearlier : ∀ source, Dependency parts source vertex →
        AgreesAt (.composite interface internals parts dependencies) values values' source :=
      fun source hdepends => ih _ (hrank _ _ hdepends)
        (fun index hpath => hinputs index (hpath.tail hdepends)) rfl
    have hdriven : ∀ role index, role ≠ .input → role.vertex index = vertex →
        values.pin [] role index = values'.pin [] role index := by
      intro role index hrole hvertex
      cases hpin : ((Component.composite interface internals parts dependencies).pinsOf
        role)[index]? with
      | none =>
        have hnone := List.getElem?_eq_none_iff.mp hpin
        simp only [PinValues.pin, List.getD_eq_getElem?_getD,
          List.getElem?_eq_none (h.length_eq role ▸ hnone),
          List.getElem?_eq_none (h'.length_eq role ▸ hnone)]
      | some pin =>
        refine h.joined.driven_eq h'.joined hfitted hrole hpin
          fun place part hpart wire hwire hout howner => ?_
        have hsource := hearlier (.part part.position)
          (hvertex ▸ .drive (List.mem_of_getElem? hpart) hwire hout howner) place part hpart rfl
        rw [PinValues.pin, hsource, PinValues.pin]
    cases vertex with
    | root => trivial
    | input index => exact hinputs index .refl
    | output index => exact hdriven .output index (by simp) rfl
    | internal index => exact hdriven .internal index (by simp) rfl
    | part position =>
      intro place part hpart hposition
      refine hparts part (List.mem_of_getElem? hpart) (h.part hpart) (h'.part hpart)
        (hsame.part hpart) (hhold.part hpart) fun index pin hpin hclocked => ?_
      refine h.joined.input_alike h'.joined hfitted hpart hpin
        fun wire hwire hin hindex role source far howner hfar => ?_
      refine (hearlier (role.vertex source) ?_).alike hfar
      rw [← hposition]
      exact .read (List.mem_of_getElem? hpart) hwire hin howner (hindex ▸ hclocked)

theorem outputsFollow_composite (hinputs : ∀ (index : Nat) (pin : Pin),
      interface.inputs[index]? = some pin → interface.clockedInputs.getD index false = false →
      Alike pin.width (values.pin [] .input index) (values'.pin [] .input index)) :
    values [] .output = values' [] .output := by
  refine h.values_eq h' fun output far hfar => ?_
  have hagrees : AgreesAt (.composite interface internals parts dependencies) values values'
      (.output output) := by
    refine agreesAt_of_inputs hwiring hfitted hparts h h' hsame hhold fun index hpath pin hpin => ?_
    cases hclocked : interface.clockedInputs.getD index false with
    | false => exact hinputs index pin hpin hclocked
    | true =>
      have hlt := (List.getElem?_eq_some_iff.mp hfar).1
      exact absurd hpath (hwiring.cutOff index hclocked output hlt)
  exact hagrees

/-- A clocked output follows from what the primitives hold alone. -/
theorem clocked_output_eq {output : Nat}
    (hclocked : interface.clockedOutputs.getD output false = true) :
    values.pin [] .output output = values'.pin [] .output output := by
  have hagrees : AgreesAt (.composite interface internals parts dependencies) values values'
      (.output output) := by
    refine agreesAt_of_inputs hwiring hfitted hparts h h' hsame hhold fun index hpath pin hpin => ?_
    have hlt := (List.getElem?_eq_some_iff.mp hpin).1
    exact absurd hpath (hwiring.outputs_cutOff output hclocked index hlt)
  exact hagrees

theorem agreesAt_of_all_inputs (hinputs : ∀ (index : Nat) (pin : Pin),
      interface.inputs[index]? = some pin →
      Alike pin.width (values.pin [] .input index) (values'.pin [] .input index))
    (vertex : Vertex) :
    AgreesAt (.composite interface internals parts dependencies) values values' vertex :=
  agreesAt_of_inputs hwiring hfitted hparts h h' hsame hhold fun index _ pin hpin =>
    hinputs index pin hpin

end Composite

end Component

/-- The outputs of a well wired component follow from what its primitives hold and from inputs that
are not clocked. -/
theorem WellWired.outputsFollow {component : Component} (h : WellWired component) :
    component.OutputsFollow := by
  induction h with
  | primitive kind => exact outputsFollow_primitive kind
  | composite hparts hwiring ih =>
    intro stores stores' values values' hsettled hsettled' hsame hhold hinputs
    exact outputsFollow_composite hwiring (WellWired.composite hparts hwiring).fitted
      (fun part hpart => ih part hpart) hsettled hsettled' hsame hhold hinputs

theorem WellWired.part {owner : Component} (h : WellWired owner) {part : Part Component}
    (hpart : part ∈ owner.parts) : WellWired part.component := by
  cases h with
  | primitive kind => cases hpart
  | composite hparts _ => exact hparts part hpart

theorem WellWired.exists_primitive {interface : Interface} {chip : ChipSpec}
    (h : WellWired (.builtIn interface chip)) : ∃ kind, chip = .primitive kind := by
  generalize hcomponent : Component.builtIn interface chip = component at h
  cases h with
  | primitive kind =>
    rw [Primitive.component] at hcomponent
    cases hcomponent
    exact ⟨kind, rfl⟩
  | composite => cases hcomponent

theorem WellWired.clocked_output_eq {component : Component} (h : WellWired component)
    {values values' : PinValues} {stores stores' : Stores}
    (hsettled : Settled component stores values) (hsettled' : Settled component stores' values')
    (hsame : component.HoldsSame stores stores') (hhold : component.CanHold stores) {output : Nat}
    (hclocked : component.isOutputClocked output = true) :
    values.pin [] .output output = values'.pin [] .output output := by
  cases h with
  | primitive kind =>
    rw [PinValues.pin, PinValues.pin, ← hsettled.answer, ← hsettled'.answer, ← hsame [] kind rfl,
      Primitive.answer_eq_of_clocked (hhold [] kind rfl) hclocked]
  | composite hparts hwiring =>
    exact Component.clocked_output_eq hwiring (WellWired.composite hparts hwiring).fitted
      (fun part hpart => (hparts part hpart).outputsFollow) hsettled hsettled' hsame hhold hclocked

structure SameValues (component : Component) (values values' : PinValues) : Prop where
  driven : ∀ path inner, component.descend? path = some inner → ∀ role, role ≠ .input →
    values path role = values' path role
  inputs : ∀ path inner, component.descend? path = some inner → ∀ (index : Nat) (pin : Pin),
    inner.inputs[index]? = some pin →
    Alike pin.width (values.pin path .input index) (values'.pin path .input index)

section Unique

variable {component : Component} {values values' : PinValues} {stores stores' : Stores}
  (h : WellWired component) (hsettled : Settled component stores values)
  (hsettled' : Settled component stores' values') (hsame : component.HoldsSame stores stores')
  (hhold : component.CanHold stores)
  (hinputs : ∀ (index : Nat) (pin : Pin), component.inputs[index]? = some pin →
    Alike pin.width (values.pin [] .input index) (values'.pin [] .input index))

include h hsettled hsettled' hsame hhold hinputs

/-- Settled assignments that agree at the inputs of a component agree at its other pins. -/
theorem WellWired.driven_eq {role : PinRole} (hrole : role ≠ .input) :
    values [] role = values' [] role := by
  cases role with
  | input => exact absurd rfl hrole
  | output =>
    exact h.outputsFollow hsettled hsettled' hsame hhold
      fun index pin hpin _ => hinputs index pin hpin
  | internal =>
    refine hsettled.values_eq hsettled' fun index pin hpin => ?_
    cases h with
    | primitive kind => cases hpin
    | composite hparts hwiring =>
      exact agreesAt_of_all_inputs hwiring (WellWired.composite hparts hwiring).fitted
        (fun part hpart => (hparts part hpart).outputsFollow) hsettled hsettled' hsame hhold hinputs
        (.internal index)

theorem WellWired.part_alike {position : Nat} {part : Part Component}
    (hpart : component.parts[position]? = some part) {index : Nat} {pin : Pin}
    (hpin : part.component.inputs[index]? = some pin) :
    Alike pin.width (values.pin [position] .input index) (values'.pin [position] .input index) := by
  cases h with
  | primitive kind => simp [Primitive.component, parts] at hpart
  | composite hparts hwiring =>
    have hfitted := (WellWired.composite hparts hwiring).fitted
    refine hsettled.joined.input_alike hsettled'.joined hfitted hpart hpin
      fun wire _ _ _ role place far _ hfar => ?_
    exact (agreesAt_of_all_inputs hwiring hfitted
      (fun part hpart => (hparts part hpart).outputsFollow) hsettled hsettled' hsame hhold hinputs
      (role.vertex place)).alike hfar

/-- Settled assignments that agree at the inputs agree at all depths: there is one at most for what
the primitives hold and the inputs carry. -/
theorem WellWired.sameValues : SameValues component values values' := by
  have hboth : ∀ path inner, component.descend? path = some inner →
      (∀ role, role ≠ .input → values path role = values' path role) ∧
      ∀ (index : Nat) (pin : Pin), inner.inputs[index]? = some pin →
        Alike pin.width (values.pin path .input index) (values'.pin path .input index) := by
    intro path inner hinner
    induction path generalizing component stores stores' values values' with
    | nil =>
      obtain rfl := Option.some.inj hinner
      exact ⟨fun role hrole => h.driven_eq hsettled hsettled' hsame hhold hinputs hrole, hinputs⟩
    | cons position path ih =>
      obtain ⟨part, hpart, hinner⟩ := exists_part_of_descend? hinner
      exact ih (h.part (List.mem_of_getElem? hpart)) (hsettled.part hpart) (hsettled'.part hpart)
        (hsame.part hpart) (hhold.part hpart)
        (fun index pin hpin => h.part_alike hsettled hsettled' hsame hhold hinputs hpart hpin)
        hinner
  exact ⟨fun path inner hinner => (hboth path inner hinner).1,
    fun path inner hinner => (hboth path inner hinner).2⟩

end Unique
end ClockedLogic
