import ClockedLogic.Proofs.Companions

/-!
Composite components with the same parts and the same internal pins in different orders. A wire of a
part then names the same internal pin by another number. What is settled in one of them is settled
in the other one, position by position and number by number, so their circuits hold the same and
their pins carry the same under the same names.
-/

namespace ClockedLogic

open Component Word

def PinRole.renumbered (number : Nat → Nat) : PinRole → Nat → Nat
  | .internal, index => number index
  | .input, index => index
  | .output, index => index

def Endpoint.renumbered (number : Nat → Nat) : Endpoint → Endpoint
  | .pin role index => .pin role (role.renumbered number index)
  | .ones => .ones
  | .zeros => .zeros

def Wire.renumbered (number : Nat → Nat) (wire : Wire) : Wire :=
  { wire with owner := wire.owner.renumbered number }

def Pin.renumbered (number : Nat → Nat) (pin : Pin) : Pin :=
  { pin with index := pin.role.renumbered number pin.index }

theorem Pin.renumbered_eq_self {pin : Pin} (h : pin.role ≠ .internal) (number : Nat → Nat) :
    pin.renumbered number = pin := by
  rw [renumbered]
  cases hrole : pin.role with
  | internal => exact absurd hrole h
  | input | output => rw [PinRole.renumbered, ← hrole]

theorem Pin.spanOf_eq {pin far : Pin} (h : pin.width = far.width) (bits : Option BitSpan) :
    pin.spanOf bits = far.spanOf bits := by rw [spanOf, spanOf, h]

namespace Component.Settled

variable {component : Component} {stores : Stores} {values : PinValues}

theorem joined_of_composite (h : Settled component stores values)
    (hcomposite : component.isBuiltIn = false) : component.Joined values := by
  cases h with
  | primitive => cases hcomposite
  | composite _ hjoined _ => exact hjoined

theorem of_joined (hcomposite : component.isBuiltIn = false)
    (hsizes : ∀ role, (values [] role).length = (component.pinsOf role).length)
    (hjoined : component.Joined values)
    (hparts : ∀ (position : Nat) (part : Part Component), component.parts[position]? = some part →
      Settled part.component (beyond [position] stores) (beyond [position] values)) :
    Settled component stores values := by
  cases component with
  | builtIn => cases hcomposite
  | composite => exact .composite hsizes hjoined hparts

end Component.Settled

/-- Whether a component has the parts and the internal pins of another one, in another order. The
functions tell where those of the other one are. -/
structure Component.Rearranges (order number : Nat → Nat) (component other : Component) : Prop where
  composite : component.isBuiltIn = false
  composite' : other.isBuiltIn = false
  inputs : component.inputs = other.inputs
  outputs : component.outputs = other.outputs
  internals : ∀ (index : Nat) (pin : Pin), other.internals[index]? = some pin →
    ∃ found, component.internals[number index]? = some found ∧ found.width = pin.width
  number_inj : ∀ first < other.internals.length, ∀ second < other.internals.length,
    number first = number second → first = second
  named : ∀ name, component.pin? name = (other.pin? name).map (Pin.renumbered number)
  parts : ∀ (position : Nat) (part : Part Component), other.parts[position]? = some part →
    ∃ found, component.parts[order position]? = some found ∧ found.component = part.component ∧
      ∀ wire, wire ∈ found.wires ↔ ∃ original ∈ part.wires, original.renumbered number = wire
  parts_onto : ∀ part ∈ component.parts, ∃ position < other.parts.length,
    component.parts[order position]? = some part

/-- How a rearranged component looks like the original one with so many internal pins. -/
def View.rearranged (order number : Nat → Nat) (size : Nat) : View where
  path
    | [] => []
    | position :: path => order position :: path
  values values
    | [], .internal => (List.range size).map fun index => values.pin [] .internal (number index)
    | [], role => values [] role
    | position :: path, role => values (order position :: path) role

namespace Component.Rearranges

variable {order number : Nat → Nat} {component other : Component}

theorem exists_pin (h : component.Rearranges order number other) {role : PinRole} {index : Nat}
    {pin : Pin} (hpin : (other.pinsOf role)[index]? = some pin) :
    ∃ found, (component.pinsOf role)[role.renumbered number index]? = some found ∧
      found.width = pin.width := by
  cases role with
  | input => exact ⟨pin, (congrArg (·[index]?) h.inputs).trans hpin, rfl⟩
  | output => exact ⟨pin, (congrArg (·[index]?) h.outputs).trans hpin, rfl⟩
  | internal => exact h.internals index pin hpin

/-- The value of each pin is that of the pin at its new place. -/
theorem pin_values {values : PinValues} {role : PinRole} {index : Nat}
    (hlt : index < (other.pinsOf role).length) :
    ((View.rearranged order number other.internals.length).values values).pin [] role index =
      values.pin [] role (role.renumbered number index) := by
  cases role with
  | input => rfl
  | output => rfl
  | internal =>
    have hlt' : index < other.internals.length := hlt
    rw [PinValues.pin, View.rearranged, PinRole.renumbered]
    simp [List.getD_eq_getElem?_getD, hlt']

/-- A wire of the rearranged component that ends at the new place of a pin ended at the pin. -/
theorem owner_eq (h : component.Rearranges order number other) (hfitted : Fitted other)
    {part : Part Component} (hpart : part ∈ other.parts) {wire : Wire} (hwire : wire ∈ part.wires)
    {role : PinRole} {index : Nat} (hlt : index < (other.pinsOf role).length)
    (howner : (wire.renumbered number).owner = .pin role (role.renumbered number index)) :
    wire.owner = .pin role index := by
  rw [Wire.renumbered] at howner
  cases hfar : wire.owner with
  | ones => rw [hfar] at howner; cases howner
  | zeros => rw [hfar] at howner; cases howner
  | pin role' place =>
    rw [hfar] at howner
    obtain ⟨rfl, hsame⟩ := Endpoint.pin.inj howner
    cases role' with
    | input => exact congrArg _ hsame
    | output => exact congrArg _ hsame
    | internal =>
      obtain ⟨_, _, -, hget, -⟩ := hfitted.exists_pins hpart hwire hfar
      rw [h.number_inj place (List.getElem?_eq_some_iff.mp hget).1 index hlt hsame]

theorem joined (h : component.Rearranges order number other) (hfitted : Fitted other)
    {values : PinValues} (hjoined : component.Joined values) :
    other.Joined ((View.rearranged order number other.internals.length).values values) where
  wires position part hpart wire hwire pin hpin role index far howner hfar offset hoffset := by
    obtain ⟨found, hfound, hcomponent, hwires⟩ := h.parts position part hpart
    obtain ⟨place, hplace, hwidth⟩ := h.exists_pin hfar
    rw [pin_values (List.getElem?_eq_some_iff.mp hfar).1, ← Pin.spanOf_eq hwidth]
    refine hjoined.wires (order position) found hfound (wire.renumbered number)
      ((hwires _).mpr ⟨wire, hwire, rfl⟩) pin (hcomponent ▸ hpin) role _ place ?_ hplace offset
      hoffset
    rw [Wire.renumbered, howner]
    rfl
  constants position part hpart wire hwire pin hpin constant howner := by
    obtain ⟨found, hfound, hcomponent, hwires⟩ := h.parts position part hpart
    refine hjoined.constants (order position) found hfound (wire.renumbered number)
      ((hwires _).mpr ⟨wire, hwire, rfl⟩) pin (hcomponent ▸ hpin) constant ?_
    rw [Wire.renumbered, howner]
    cases constant <;> rfl
  inputs position part hpart index pin hpin bit hbit hidle := by
    obtain ⟨found, hfound, hcomponent, hwires⟩ := h.parts position part hpart
    refine hjoined.inputs (order position) found hfound index pin (hcomponent ▸ hpin) bit hbit
      fun wire hwire hin hindex => ?_
    obtain ⟨original, horiginal, rfl⟩ := (hwires wire).mp hwire
    exact hidle original horiginal hin hindex
  driven role hrole index pin hpin bit hidle := by
    obtain ⟨place, hplace, hwidth⟩ := h.exists_pin hpin
    have hlt := (List.getElem?_eq_some_iff.mp hpin).1
    rw [pin_values hlt]
    refine hjoined.driven role hrole _ place hplace bit fun part hpart wire hwire hout howner => ?_
    obtain ⟨position, hposition, hpart⟩ := h.parts_onto part hpart
    obtain ⟨found, hfound, -, hwires⟩ := h.parts position _ (List.getElem?_eq_getElem hposition)
    obtain rfl := Option.some.inj (hfound.symm.trans hpart)
    obtain ⟨original, horiginal, rfl⟩ := (hwires wire).mp hwire
    rw [Pin.spanOf_eq hwidth]
    exact hidle _ (List.getElem_mem hposition) original horiginal hout
      (h.owner_eq hfitted (List.getElem_mem hposition) horiginal hlt howner)

theorem settled (h : component.Rearranges order number other) (hfitted : Fitted other)
    {stores : Stores} {values : PinValues} (hsettled : Settled component stores values) :
    Settled other ((View.rearranged order number other.internals.length).stores stores)
      ((View.rearranged order number other.internals.length).values values) := by
  refine .of_joined h.composite' (fun role => ?_)
    (h.joined hfitted (hsettled.joined_of_composite h.composite)) fun position part hpart => ?_
  · cases role with
    | input => exact (hsettled.length_eq .input).trans (congrArg List.length h.inputs)
    | output => exact (hsettled.length_eq .output).trans (congrArg List.length h.outputs)
    | internal => exact (List.length_map ..).trans List.length_range
  · obtain ⟨found, hfound, hcomponent, -⟩ := h.parts position part hpart
    rw [← hcomponent]
    exact hsettled.part hfound

theorem mirrors (h : component.Rearranges order number other) (hfitted : Fitted other) :
    component.Mirrors other (.rearranged order number other.internals.length) where
  primitive path kind hkind := by
    cases path with
    | nil =>
      have hcomposite := h.composite'
      rw [Option.some.inj hkind] at hcomposite
      cases hcomposite
    | cons position path =>
      obtain ⟨part, hpart, hkind⟩ := exists_part_of_descend? hkind
      obtain ⟨found, hfound, hcomponent, -⟩ := h.parts position part hpart
      exact (descend?_cons hfound path).trans (hcomponent ▸ hkind)
  reads path kind hkind values := by
    cases path with
    | nil => rfl
    | cons position path => rfl
  settled hsettled := h.settled hfitted hsettled
  inputs := h.inputs
  named name pin hrole := by
    have hkept : ∀ found : Pin, found.role = .input → found.renumbered number = found :=
      fun found hinput => Pin.renumbered_eq_self (by simp [hinput]) number
    rw [h.named name, Option.map_eq_some_iff]
    constructor
    · rintro ⟨found, hfound, rfl⟩
      rwa [hkept found hrole]
    · exact fun hpin => ⟨pin, hpin, hkept pin hrole⟩
  entries values := rfl

end Component.Rearranges

open Circuit

/-- The circuit of a rearranged component and that of the original one: whenever both have been
brought up to date, every name has the same value in both. -/
theorem Component.Rearranges.get?_driveAll {order number : Nat → Nat} {component other : Component}
    (h : component.Rearranges order number other) {draft draft' : Draft} {circuit beside : Circuit}
    (hbegun : Begun true component draft circuit) (hbegun' : Begun true other draft' beside)
    {stimuli : List Stimulus} (hsettles : stimuli.getLast?.all Stimulus.settles = true)
    (name : String) :
    (circuit.driveAll stimuli).get? name = (beside.driveAll stimuli).get? name := by
  obtain ⟨width, hdrafted⟩ := hbegun'.intact.drafted
  have hfitted := hdrafted.wellWired.fitted
  have halike : ∀ {width : Nat} {a b : Word}, a = b → Alike width a b := .of_eq
  have hstimuli : List.Forall₂ (Stimulus.Agree (fun _ a b => a = b) other) stimuli stimuli := by
    refine List.forall₂_same.mpr fun stimulus _ => ?_
    cases stimulus with
    | set => exact .set fun _ _ => rfl
    | _ => exact .same rfl
  have hstart : Companions (fun _ a b => a = b) true true component other
      (.rearranged order number other.internals.length) draft draft' circuit beside :=
    .of_begun (h.mirrors hfitted) (fun _ => rfl) hbegun hbegun'
  have hend := hstart.driveAll halike hstimuli
  rw [hend.intact.get?_eq, hend.intact'.get?_eq, h.named, Option.map_map]
  refine Option.map_congr fun pin hpin => ?_
  have hplace := hfitted.getElem?_pinsOf hpin
  have hlt := (List.getElem?_eq_some_iff.mp hplace).1
  show (circuit.driveAll stimuli).pinValues.pin [] pin.role
    (pin.role.renumbered number pin.index) = _
  rw [← pin_values hlt]
  by_cases hrole : pin.role = .input
  · rw [hrole] at hplace hlt ⊢
    have hlt' : pin.index < component.inputs.length := h.inputs ▸ hlt
    rw [PinValues.pin, hend.mirrors.entries, ← PinValues.pin, hend.intact.pin_input hlt',
      hend.intact'.pin_input hlt]
    exact hend.inputs pin.index pin hplace
  · rw [PinValues.pin, PinValues.pin, hstart.driven_driveAll halike hbegun.atRest hbegun'.atRest
      hstimuli hsettles rfl hrole]

end ClockedLogic
