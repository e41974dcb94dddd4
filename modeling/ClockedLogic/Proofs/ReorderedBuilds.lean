import ClockedLogic.Proofs.CycleCheck
import ClockedLogic.Proofs.Rearranging
import ClockedLogic.Proofs.Reordering

/-!
What reordered blueprints are built to. A name that parts drive becomes an internal pin in both, of
the same width but with another number, so each wire is joined to the pin of the same name; and the
same inputs lead to the same outputs. The components have the same interface, and the same parts and
internal pins in other orders.
-/

namespace ClockedLogic

open Component

/-- A reference means one span of a bus at most. -/
theorem Meant.unique {width : Nat} {bits : Option (BitNumber × BitNumber)}
    {span span' : Option BitSpan} (h : Meant width bits span) (h' : Meant width bits span') :
    span = span' :=
  Except.ok.inj ((Blueprint.spanWithin_eq_ok.mpr h).symm.trans
    ((@Blueprint.spanWithin_eq_ok "" "" _ _ _).mpr h'))

/-- A wire that is moved is joined to the pins of the same names. -/
theorem OpenWire.Joined.moved {number place : Nat → Nat} {pins pins' : List Pin}
    (hnames : (pins.map Pin.name).Nodup) (hpins : ∀ pin ∈ pins', pin.renumbered number ∈ pins)
    {wire : OpenWire} {joint joint' : Joint} (h : wire.Joined pins joint)
    (h' : (wire.moved place).Joined pins' joint') :
    joint.wire = joint'.wire.renumbered number ∧ joint'.part = place joint.part := by
  have hsame : ∀ {pin pin' : Pin} {bits bits' : Option (BitNumber × BitNumber)}, pin ∈ pins →
      pin' ∈ pins' → wire.owner = .pin pin.name bits →
      (wire.moved place).owner = .pin pin'.name bits' →
      pin = pin'.renumbered number ∧ bits = bits' := by
    intro pin pin' bits bits' hpin hpin' howner howner'
    obtain ⟨hname, hbits⟩ := BusReference.pin.inj (howner.symm.trans howner')
    exact ⟨List.inj_on_of_nodup_map hnames hpin (hpins pin' hpin') hname, hbits⟩
  cases h with
  | ones hinput howner =>
    cases h' with
    | ones => exact ⟨rfl, rfl⟩
    | zeros _ howner' => cases howner.symm.trans howner'
    | read _ howner' => cases howner.symm.trans howner'
    | drive houtput => exact absurd hinput houtput
  | zeros hinput howner =>
    cases h' with
    | ones _ howner' => cases howner.symm.trans howner'
    | zeros => exact ⟨rfl, rfl⟩
    | read _ howner' => cases howner.symm.trans howner'
    | drive houtput => exact absurd hinput houtput
  | read hinput howner hpin _ hmeant =>
    cases h' with
    | ones _ howner' => cases howner.symm.trans howner'
    | zeros _ howner' => cases howner.symm.trans howner'
    | read _ howner' hpin' _ hmeant' =>
      obtain ⟨rfl, rfl⟩ := hsame hpin hpin' howner howner'
      obtain rfl := hmeant.unique hmeant'
      exact ⟨rfl, rfl⟩
    | drive houtput => exact absurd hinput houtput
  | drive houtput howner hpin _ _ hmeant =>
    cases h' with
    | ones hinput => exact absurd hinput houtput
    | zeros hinput => exact absurd hinput houtput
    | read hinput => exact absurd hinput houtput
    | drive _ howner' hpin' _ _ hmeant' =>
      obtain ⟨rfl, rfl⟩ := hsame hpin hpin' howner howner'
      obtain rfl := hmeant.unique hmeant'
      exact ⟨rfl, rfl⟩

namespace Blueprint

variable {blueprint other : Blueprint} {place : Equiv.Perm Nat} {wires wires' : List OpenWire}
  {internals internals' : List Pin} {joints joints' : List Joint} {number : Nat → Nat}

/-- What holds of the components of all parts holds of them after reordering. -/
theorem Renumbers.parts (h : blueprint.Renumbers place other) {holds : Component → Prop}
    (hparts : ∀ part ∈ blueprint.parts, holds part.1) : ∀ part ∈ other.parts, holds part.1 := by
  intro part hpart
  obtain ⟨position, hposition⟩ := List.mem_iff_getElem?.mp hpart
  have hsame := h.components (place.symm position)
  rw [place.apply_symm_apply, hposition] at hsame
  obtain ⟨found, hfound, hcomponent⟩ := Option.map_eq_some_iff.mp hsame.symm
  exact hcomponent ▸ hparts found (List.mem_of_getElem? hfound)

/-- Whether every pin after reordering was a pin before, apart from the numbers of internal pins. -/
def Numbers (blueprint other : Blueprint) (internals internals' : List Pin)
    (number : Nat → Nat) : Prop :=
  ∀ pin ∈ other.declaredPins ++ internals',
    pin.renumbered number ∈ blueprint.declaredPins ++ internals

/-- Names that parts drive become internal pins in any order. -/
theorem Rewires.exists_numbers (h : blueprint.Rewires place other wires wires')
    (hscanned : blueprint.Scanned wires internals)
    (hscanned' : other.Scanned wires' internals')
    (hapart : wires.Pairwise fun a b => ¬ a.Clash b) :
    ∃ number, blueprint.Numbers other internals internals' number := by
  have hfind : ∀ index : Nat, ∃ found : Nat, ∀ pin : Pin, internals'[index]? = some pin →
      { pin with index := found } ∈ blueprint.declaredPins ++ internals := by
    intro index
    cases hpin : internals'[index]? with
    | none => exact ⟨0, fun _ hnone => by cases hnone⟩
    | some pin =>
      have hoffers := h.symm.offers (hscanned'.offers
        (List.mem_append_right other.declaredPins (List.mem_of_getElem? hpin)))
      obtain ⟨found, hfound, hrole, hname, hwidth⟩ := hscanned.exists_pin hapart hoffers
      refine ⟨found.index, fun same hsame => ?_⟩
      obtain rfl := Option.some.inj hsame
      rwa [← hrole, ← hname, ← hwidth]
  choose number hnumber using hfind
  refine ⟨number, fun pin hpin => ?_⟩
  have hplace := other.getElem?_pinsOf hscanned'.ordered hpin
  by_cases hrole : pin.role = .internal
  · rw [hrole] at hplace
    have hfound := hnumber pin.index pin hplace
    rwa [Pin.renumbered, hrole, PinRole.renumbered, ← hrole]
  · rw [Pin.renumbered_eq_self hrole, ← h.declaredPins_eq]
    refine List.mem_append_left _ ((List.mem_append.mp hpin).resolve_right fun hinternal => ?_)
    obtain ⟨index, hindex⟩ := List.mem_iff_getElem?.mp hinternal
    exact hrole (hscanned'.ordered .internal index pin hindex).1

namespace Numbers

theorem inj (h : blueprint.Numbers other internals internals' number)
    (hscanned : blueprint.Scanned wires internals) (hscanned' : other.Scanned wires' internals')
    {first second : Nat} (hfirst : first < internals'.length) (hsecond : second < internals'.length)
    (hsame : number first = number second) : first = second := by
  have hmem : ∀ {index} (hlt : index < internals'.length),
      internals'[index] ∈ other.declaredPins ++ internals' :=
    fun hlt => List.mem_append_right _ (List.getElem_mem hlt)
  obtain ⟨hrole, hindex, -⟩ :=
    hscanned'.ordered .internal first _ (List.getElem?_eq_getElem hfirst)
  obtain ⟨hrole', hindex', -⟩ :=
    hscanned'.ordered .internal second _ (List.getElem?_eq_getElem hsecond)
  have hpins := hscanned.eq_of_place (h _ (hmem hfirst)) (h _ (hmem hsecond))
    (hrole.trans hrole'.symm) (by
      simp only [Pin.renumbered, hrole, hrole', PinRole.renumbered, hindex, hindex', hsame])
  have hname : (internals'[first].renumbered number).name =
      (internals'[second].renumbered number).name := congrArg Pin.name hpins
  rw [← hindex, hscanned'.eq_of_name (hmem hfirst) (hmem hsecond) hname, hindex']

theorem find?_eq (h : blueprint.Numbers other internals internals' number)
    {number' : Nat → Nat} (h' : other.Numbers blueprint internals' internals number')
    (hscanned : blueprint.Scanned wires internals) (hscanned' : other.Scanned wires' internals')
    (name : String) :
    Pin.find? (blueprint.declaredPins ++ internals) name =
      (Pin.find? (other.declaredPins ++ internals') name).map (Pin.renumbered number) := by
  cases hpin : Pin.find? (other.declaredPins ++ internals') name with
  | some pin =>
    obtain ⟨hmem, hname⟩ := (Pin.find?_eq_some_iff hscanned'.found.nodup).mp hpin
    exact (Pin.find?_eq_some_iff hscanned.found.nodup).mpr ⟨h pin hmem, hname⟩
  | none =>
    refine Option.eq_none_iff_forall_ne_some.mpr fun pin hfound => ?_
    obtain ⟨hmem, hname⟩ := (Pin.find?_eq_some_iff hscanned.found.nodup).mp hfound
    have hback := (Pin.find?_eq_some_iff hscanned'.found.nodup).mpr ⟨h' pin hmem, hname⟩
    cases hpin.symm.trans hback

end Numbers

structure Rejoins (place : Equiv.Perm Nat) (number : Nat → Nat) (blueprint other : Blueprint)
    (wires wires' : List OpenWire) (internals internals' : List Pin)
    (joints joints' : List Joint) : Prop
    extends blueprint.Rewires place other wires wires' where
  jointed : blueprint.Jointed wires internals joints
  jointed' : other.Jointed wires' internals' joints'
  numbers : blueprint.Numbers other internals internals' number

namespace Rejoins

variable (h : Rejoins place number blueprint other wires wires' internals internals' joints joints')

include h

theorem exists_joint_of_mem {joint : Joint} (hjoint : joint ∈ joints) : ∃ joint' ∈ joints',
    joint.wire = joint'.wire.renumbered number ∧ joint'.part = place joint.part := by
  obtain ⟨wire, hwire, hjoined⟩ := exists_of_forall₂ h.jointed.joined hjoint
  obtain ⟨joint', hjoint', hjoined'⟩ := exists_of_forall₂ h.jointed'.joined.flip (h.mem hwire)
  exact ⟨joint', hjoint', hjoined.moved h.jointed.scanned.found.nodup h.numbers hjoined'⟩

theorem exists_joint_of_mem' {joint' : Joint} (hjoint' : joint' ∈ joints') : ∃ joint ∈ joints,
    joint.wire = joint'.wire.renumbered number ∧ joint'.part = place joint.part := by
  obtain ⟨_, hwire', hjoined'⟩ := exists_of_forall₂ h.jointed'.joined hjoint'
  obtain ⟨wire, hwire, rfl⟩ := h.exists_of_mem hwire'
  obtain ⟨joint, hjoint, hjoined⟩ := exists_of_forall₂ h.jointed.joined.flip hwire
  exact ⟨joint, hjoint, hjoined.moved h.jointed.scanned.found.nodup h.numbers hjoined'⟩

/-- A part has the same component and the same wires at its new position. -/
theorem part?_eq {position : Nat} {part' : Part Component}
    (hpart' : other.part? joints' (place position) = some part') :
    ∃ part, blueprint.part? joints position = some part ∧ part.component = part'.component ∧
      ∀ wire, wire ∈ part.wires ↔
        ∃ original ∈ part'.wires, original.renumbered number = wire := by
  obtain ⟨-, ⟨references', hget'⟩, hwires'⟩ := Joinery.of_part? hpart'
  have hcomponent := h.components position
  rw [hget', Option.map_some] at hcomponent
  obtain ⟨⟨component, references⟩, hget, rfl⟩ := Option.map_eq_some_iff.mp hcomponent.symm
  refine ⟨_, Option.map_eq_some_iff.mpr ⟨_, hget, rfl⟩, rfl, fun wire => ?_⟩
  have hpart : blueprint.part? joints position = some _ :=
    Option.map_eq_some_iff.mpr ⟨_, hget, rfl⟩
  obtain ⟨-, -, hwires⟩ := Joinery.of_part? hpart
  rw [hwires wire]
  constructor
  · rintro ⟨joint, hjoint, rfl, rfl⟩
    obtain ⟨joint', hjoint', hwire, hposition⟩ := h.exists_joint_of_mem hjoint
    exact ⟨joint'.wire, (hwires' _).mpr ⟨joint', hjoint', hposition, rfl⟩, hwire.symm⟩
  · rintro ⟨_, horiginal, rfl⟩
    obtain ⟨joint', hjoint', hposition', rfl⟩ := (hwires' _).mp horiginal
    obtain ⟨joint, hjoint, hwire, hposition⟩ := h.exists_joint_of_mem' hjoint'
    exact ⟨joint, hjoint, place.injective (hposition.symm.trans hposition'), hwire⟩

theorem exists_part? {part : Part Component}
    (hpart : blueprint.part? joints part.position = some part) :
    ∃ part', other.part? joints' (place part.position) = some part' := by
  obtain ⟨-, ⟨references, hget⟩, -⟩ := Joinery.of_part? hpart
  have hsame := h.components part.position
  rw [hget, Option.map_some] at hsame
  obtain ⟨found, hfound, -⟩ := Option.map_eq_some_iff.mp hsame
  exact ⟨_, Option.map_eq_some_iff.mpr ⟨found, hfound, rfl⟩⟩

section Orders

variable {order order' : List Vertex}
  (horder : ∀ position < blueprint.parts.length, .part position ∈ order)
  (horder' : ∀ position < other.parts.length, .part position ∈ order')

include horder horder'

theorem exists_laidOut {index : Nat} {part' : Part Component}
    (hpart' : (other.laidOut internals' joints' order').parts[index]? = some part') :
    ∃ (found : Nat) (part : Part Component),
      (blueprint.laidOut internals joints order).parts[found]? = some part ∧
      blueprint.part? joints (place.symm part'.position) = some part ∧
      part.component = part'.component ∧
      ∀ wire, wire ∈ part.wires ↔
        ∃ original ∈ part'.wires, original.renumbered number = wire := by
  have hlaid := (mem_parts_laidOut horder').mp (List.mem_of_getElem? hpart')
  rw [← place.apply_symm_apply part'.position] at hlaid
  obtain ⟨part, hpart, hcomponent, hwires⟩ := h.part?_eq hlaid
  obtain ⟨found, hfound⟩ := List.mem_iff_getElem?.mp
    ((mem_parts_laidOut horder).mpr ((Joinery.of_part? hpart).1 ▸ hpart))
  exact ⟨found, part, hfound, hpart, hcomponent, hwires⟩

/-- The components have the same parts and the same internal pins, in whatever orders the parts are
laid out. -/
theorem exists_rearranges {number' : Nat → Nat}
    (hback : other.Numbers blueprint internals' internals number') :
    ∃ rank, (blueprint.laidOut internals joints order).Rearranges rank number
      (other.laidOut internals' joints' order') := by
  have hfind : ∀ index : Nat, ∃ found : Nat, ∀ part',
      (other.laidOut internals' joints' order').parts[index]? = some part' →
      ∃ part, (blueprint.laidOut internals joints order).parts[found]? = some part ∧
        blueprint.part? joints (place.symm part'.position) = some part ∧
        part.component = part'.component ∧
        ∀ wire, wire ∈ part.wires ↔
          ∃ original ∈ part'.wires, original.renumbered number = wire := by
    intro index
    cases hpart' : (other.laidOut internals' joints' order').parts[index]? with
    | none => exact ⟨0, fun _ hnone => by cases hnone⟩
    | some part' =>
      obtain ⟨found, part, hpart⟩ := h.exists_laidOut horder horder' hpart'
      exact ⟨found, fun same hsame => ⟨part, Option.some.inj hsame ▸ hpart⟩⟩
  choose rank hrank using hfind
  refine ⟨rank, rfl, rfl, h.inputPins_eq.symm, h.outputPins_eq.symm, fun index pin hpin => ?_,
    fun _ hfirst _ hsecond hsame => h.numbers.inj h.jointed.scanned h.jointed'.scanned hfirst
      hsecond hsame, h.numbers.find?_eq hback h.jointed.scanned h.jointed'.scanned,
    fun index part' hpart' => ?_, fun part hpart => ?_⟩
  · obtain ⟨hrole, hindex, -⟩ := h.jointed'.scanned.ordered .internal index pin hpin
    have hplace := blueprint.getElem?_pinsOf h.jointed.scanned.ordered
      (h.numbers pin (List.mem_append_right _ (List.mem_of_getElem? hpin)))
    rw [Pin.renumbered, hrole, PinRole.renumbered, hindex] at hplace
    exact ⟨_, hplace, rfl⟩
  · obtain ⟨part, hpart, -, hcomponent, hwires⟩ := hrank index part' hpart'
    exact ⟨part, hpart, hcomponent, hwires⟩
  · have hfound := (mem_parts_laidOut horder).mp hpart
    obtain ⟨part', hpart'⟩ := h.exists_part? hfound
    have hposition := (Joinery.of_part? hpart').1
    obtain ⟨index, hindex⟩ := List.mem_iff_getElem?.mp
      ((mem_parts_laidOut horder').mpr (hposition ▸ hpart'))
    obtain ⟨same, hrankPart, hplace, -⟩ := hrank index part' hindex
    rw [hposition, place.symm_apply_apply, hfound] at hplace
    obtain rfl := Option.some.inj hplace
    exact ⟨index, (List.getElem?_eq_some_iff.mp hindex).1, hrankPart⟩

end Orders
end Rejoins

end Blueprint
end ClockedLogic
