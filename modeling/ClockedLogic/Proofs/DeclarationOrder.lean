import ClockedLogic.Proofs.ReorderedInterfaces
import ClockedLogic.Proofs.Unflagged

/-!
The order of declaration makes no difference. A blueprint with its parts and their wires in another
order is built if and only if the original one is. Internal pins are found and parts are sorted in
other orders, nodes get other numbers and evaluation takes other steps; but both circuits settle to
the values that the wires and the primitives determine, so every pin carries the same in both.
-/

namespace ClockedLogic

open Component Circuit

theorem Component.Rearranges.unflagged {order number : Nat → Nat} {component other : Component}
    (h : component.Rearranges order number other) :
    component.unflagged.Rearranges order number other.unflagged := by
  cases component with
  | builtIn => cases h.composite
  | composite =>
    cases other with
    | builtIn => cases h.composite'
    | composite =>
      exact ⟨rfl, rfl, h.inputs, h.outputs, h.internals, h.number_inj, h.named, h.parts,
        h.parts_onto⟩

/-- A component that keeps its promises without clocked pins has a circuit. -/
theorem Circuit.exists_begun_unflagged {component : Component}
    (h : WellWired component.unflagged) : ∃ draft circuit, ofComponent component = .ok circuit ∧
      Begun true component.unflagged draft circuit.unflagged := by
  obtain ⟨draft, beside, hbegun⟩ := exists_begun true h
  have hplace := hbegun.place_eq
  rw [place_unflagged] at hplace
  cases hcircuit : place true component with
  | error error => rw [hcircuit] at hplace; cases hplace
  | ok circuit =>
    rw [hcircuit] at hplace
    obtain rfl := Except.ok.inj hplace
    exact ⟨draft, circuit, hcircuit, hbegun⟩

theorem Component.isSome_pin? {component : Component} {pin : Pin} (h : pin ∈ component.pins) :
    (component.pin? pin.name).isSome = true :=
  List.find?_isSome.mpr ⟨pin, h, by simp⟩

/-- The circuits of a component and of a rearranged one: all pins carry the same in both after any
stimuli whose last one is no edit. -/
theorem Component.Rearranges.exists_circuits {order number : Nat → Nat}
    {component other : Component} (h : component.Rearranges order number other)
    (hwired : WellWired component.unflagged) (hwired' : WellWired other.unflagged) :
    ∃ circuit beside, ofComponent component = .ok circuit ∧ ofComponent other = .ok beside ∧
      ∀ stimuli : List Stimulus, stimuli.getLast?.all Stimulus.settles = true →
        (∀ name, (circuit.driveAll stimuli).get? name = (beside.driveAll stimuli).get? name) ∧
        ∀ pin ∈ component.pins, ((circuit.driveAll stimuli).get? pin.name).isSome = true := by
  obtain ⟨draft, circuit, hcircuit, hbegun⟩ := exists_begun_unflagged hwired
  obtain ⟨draft', beside, hbeside, hbegun'⟩ := exists_begun_unflagged hwired'
  refine ⟨circuit, beside, hcircuit, hbeside, fun stimuli hsettles =>
    ⟨fun name => ?_, fun pin hpin => ?_⟩⟩
  · rw [← circuit.get?_driveAll_unflagged, ← beside.get?_driveAll_unflagged]
    exact h.unflagged.get?_driveAll hbegun hbegun' hsettles name
  · rw [← circuit.get?_driveAll_unflagged, (hbegun.intact.driveAll stimuli).get?_eq,
      Option.isSome_map, pin?_unflagged]
    exact isSome_pin? hpin

namespace Blueprint

variable {blueprint other : Blueprint} {place : Equiv.Perm Nat} {wires wires' : List OpenWire}
  {internals internals' : List Pin} {joints joints' : List Joint} {component component' : Component}

/-- What is known of a blueprint that has been built. -/
structure Assembled (blueprint : Blueprint) (wires : List OpenWire) (internals : List Pin)
    (joints : List Joint) (component : Component) : Prop
    extends blueprint.Jointed wires internals joints where
  reads : List.Forall₂ (fun text wire => OpenWire.Reads wire text) blueprint.wireTexts wires
  joinery : blueprint.Joinery internals joints
  apart : wires.Pairwise fun a b => ¬ a.Clash b
  circle : ((blueprint.dependencies joints).traverse .root).circle = none
  component_eq : component = blueprint.laidOut internals joints
    ((blueprint.dependencies joints).traverse .root).order

theorem exists_assembled (hchip : blueprint.chip = none)
    (hparts : ∀ part ∈ blueprint.parts, Standard part.1)
    (hbuild : blueprint.build = .ok component) :
    ∃ wires internals joints, blueprint.Assembled wires internals joints component := by
  obtain ⟨hcheck, wires, internals, joints, hwires, hinternals, hjoints, hassemble⟩ :=
    build_eq_ok hchip hbuild
  have horderly : ∀ part ∈ blueprint.parts, part.1.IsOrderly := fun part hpart =>
    (hparts part hpart).isOrderly
  have hscanned := scanned (checkDeclarations_eq_ok.mp hcheck) horderly hwires hinternals
  have hjoinery := joinery_of_fitted (fun part hpart => (hparts part hpart).wellWired.fitted) hcheck
    hwires hinternals hjoints
  obtain ⟨hcircle, hcomponent⟩ := assemble_eq_ok.mp hassemble
  obtain ⟨_, rfl, hjoined, hapart⟩ := (joinWires_eq_ok .nil).mp hjoints
  have hjoined := hjoined.imp fun _ _ hjoin => OpenWire.joined_of_join hjoin
  exact ⟨wires, internals, _, ⟨hscanned, hjoined⟩, (openWires_iff_reads horderly).mp hwires,
    hjoinery, (hscanned.apart_iff hjoined).mp hapart, hcircle, hcomponent⟩

theorem Assembled.wellWired_unflagged (h : blueprint.Assembled wires internals joints component)
    (hparts : ∀ part ∈ blueprint.parts, Standard part.1) : WellWired component.unflagged := by
  rw [h.component_eq]
  exact h.joinery.wellWired_unflagged (fun part hpart => (hparts part hpart).wellWired) h.circle

namespace Renumbers

variable (h : blueprint.Renumbers place other)

include h

theorem exists_build_iff (hchip : blueprint.chip = none)
    (horderly : ∀ part ∈ blueprint.parts, part.1.IsOrderly) :
    (∃ component, blueprint.build = .ok component) ↔ ∃ component, other.build = .ok component := by
  have horderly' := h.parts horderly
  constructor
  · rintro ⟨component, hbuild⟩
    exact (h.legal hchip (legal_of_build horderly hbuild)).exists_build horderly'
  · rintro ⟨component, hbuild⟩
    have hlegal := h.symm.legal (h.chip.trans hchip) (legal_of_build horderly' hbuild)
    exact hlegal.exists_build horderly

theorem rewires (horderly : ∀ part ∈ blueprint.parts, part.1.IsOrderly)
    (hreads : List.Forall₂ (fun text wire => OpenWire.Reads wire text) blueprint.wireTexts wires)
    (hreads' : List.Forall₂ (fun text wire => OpenWire.Reads wire text) other.wireTexts wires') :
    blueprint.Rewires place other wires wires' := by
  obtain ⟨found, hfound, hmoved⟩ := h.exists_reads hreads
  have horderly' := h.parts horderly
  have hsame : found = wires' := Except.ok.inj
    (((@openWires_iff_reads _ "" _ horderly').mpr hfound).symm.trans
      ((openWires_iff_reads horderly').mpr hreads'))
  exact ⟨h, hsame ▸ hmoved⟩

theorem built_alike (horderly : ∀ part ∈ blueprint.parts, part.1.IsOrderly)
    (hbuilt : blueprint.Assembled wires internals joints component)
    (hbuilt' : other.Assembled wires' internals' joints' component') :
    component.interface = component'.interface ∧
      (component.internals.map fun pin => (pin.name, pin.width)).Perm
        (component'.internals.map fun pin => (pin.name, pin.width)) ∧
      ∃ order number, component.Rearranges order number component' := by
  have hrewires := h.rewires horderly hbuilt.reads hbuilt'.reads
  obtain ⟨number, hnumbers⟩ :=
    hrewires.exists_numbers hbuilt.scanned hbuilt'.scanned hbuilt.apart
  obtain ⟨number', hnumbers'⟩ :=
    hrewires.symm.exists_numbers hbuilt'.scanned hbuilt.scanned hbuilt'.apart
  have hrejoins : Rejoins place number blueprint other wires wires' internals internals' joints
      joints' := ⟨hrewires, hbuilt.toJointed, hbuilt'.toJointed, hnumbers⟩
  have hrejoins' : Rejoins place.symm number' other blueprint wires' wires internals' internals
      joints' joints := ⟨hrewires.symm, hbuilt'.toJointed, hbuilt.toJointed, hnumbers'⟩
  obtain ⟨order, hrearranges⟩ := hrejoins.exists_rearranges
    (fun _ hlt => part_mem_order_traverse hlt) (fun _ hlt => part_mem_order_traverse hlt) hnumbers'
  rw [hbuilt.component_eq, hbuilt'.component_eq]
  exact ⟨hrejoins.interface_laidOut_eq hrejoins' (fun _ hlt => part_mem_order_traverse hlt)
    fun _ hlt => part_mem_order_traverse hlt, hrejoins.perm_internals hrejoins', order, number,
    hrearranges⟩

end Renumbers

/-- The parts of a blueprint and the wires of each part may come in any order, whatever pins it
declares as clocked: both blueprints are built or neither is, what they are built to looks the same
from outside and has the same internal pins, and after any stimuli whose last one is no edit all
pins carry the same in the circuits of both. -/
theorem reordered_alike (hchip : blueprint.chip = none)
    (hparts : ∀ part ∈ blueprint.parts, Standard part.1) (hreorders : blueprint.Reorders other) :
    ((∃ component, blueprint.build = .ok component) ↔ ∃ component, other.build = .ok component) ∧
    ∀ component component', blueprint.build = .ok component → other.build = .ok component' →
      component.interface = component'.interface ∧
      (component.internals.map fun pin => (pin.name, pin.width)).Perm
        (component'.internals.map fun pin => (pin.name, pin.width)) ∧
      ∃ circuit circuit', Circuit.ofComponent component = .ok circuit ∧
        Circuit.ofComponent component' = .ok circuit' ∧
        ∀ stimuli : List Stimulus, stimuli.getLast?.all Stimulus.settles = true →
          (∀ name, (circuit.driveAll stimuli).get? name = (circuit'.driveAll stimuli).get? name) ∧
          ∀ pin ∈ component.pins, ((circuit.driveAll stimuli).get? pin.name).isSome = true := by
  obtain ⟨place, hrenumbers⟩ := hreorders.exists_renumbers
  have horderly : ∀ part ∈ blueprint.parts, part.1.IsOrderly := fun part hpart =>
    (hparts part hpart).isOrderly
  refine ⟨hrenumbers.exists_build_iff hchip horderly, fun component component' hbuild hbuild' => ?_⟩
  have hparts' := hrenumbers.parts hparts
  obtain ⟨_, _, _, hbuilt⟩ := exists_assembled hchip hparts hbuild
  obtain ⟨_, _, _, hbuilt'⟩ := exists_assembled (hreorders.chip.trans hchip) hparts' hbuild'
  obtain ⟨hinterface, hinternals, _, _, hrearranges⟩ :=
    hrenumbers.built_alike horderly hbuilt hbuilt'
  exact ⟨hinterface, hinternals, hrearranges.exists_circuits (hbuilt.wellWired_unflagged hparts)
    (hbuilt'.wellWired_unflagged hparts')⟩

def reversed (blueprint : Blueprint) : Blueprint :=
  { blueprint with parts := blueprint.parts.reverse.map (Prod.map id List.reverse) }

theorem reorders_reversed (blueprint : Blueprint) : blueprint.Reorders blueprint.reversed where
  name := rfl
  inputs := rfl
  outputs := rfl
  clocked := rfl
  chip := rfl
  parts := by
    refine ⟨blueprint.parts.reverse, (List.reverse_perm _).symm, ?_⟩
    rw [reversed, List.forall₂_map_right_iff]
    exact List.forall₂_same.mpr fun part _ => ⟨rfl, (List.reverse_perm _).symm⟩

/-- For example, with an inverter before the register that it drives or after it. -/
theorem reordered_alike_delay : ∃ component component' circuit circuit',
    delay.build = .ok component ∧ delay.reversed.build = .ok component' ∧
      component.interface = component'.interface ∧
      Circuit.ofComponent component = .ok circuit ∧ Circuit.ofComponent component' = .ok circuit' ∧
      ∀ pin ∈ component.pins, (circuit.driveAll [.set "in" 1, .pulse]).get? pin.name =
        (circuit'.driveAll [.set "in" 1, .pulse]).get? pin.name := by
  obtain ⟨component, hbuild, -⟩ := exists_delay
  obtain ⟨hbuilds, halike⟩ := reordered_alike rfl standard_parts_delay delay.reorders_reversed
  obtain ⟨component', hbuild'⟩ := hbuilds.mp ⟨component, hbuild⟩
  obtain ⟨hinterface, -, circuit, circuit', hcircuit, hcircuit', hsame⟩ :=
    halike component component' hbuild hbuild'
  exact ⟨component, component', circuit, circuit', hbuild, hbuild', hinterface, hcircuit, hcircuit',
    fun pin _ => (hsame _ rfl).1 pin.name⟩

end Blueprint
end ClockedLogic
