import ClockedLogic.Proofs.Acceptance
import ClockedLogic.Proofs.PartOrder
import ClockedLogic.Proofs.ReferencePrinting

/-!
Which declared pins can be wired by their own names. A declared name is read like a reference, which
takes blanks off its ends, and is then kept with them. References never have blanks in their names,
so a name without blanks around it leads to its pin, and no wire ends at a pin with others.
-/

namespace ClockedLogic

open BusReference (IsName)

def Pin.plainName (pin : Pin) : String := String.ofList (Text.trim pin.name.toList)

namespace Component.IsOrderly

variable {component : Component} {pin other : Pin}

/-- Declared pins are told apart by their places. -/
theorem eq_of_place (h : component.IsOrderly) (hpin : pin ∈ component.inputs ++ component.outputs)
    (hother : other ∈ component.inputs ++ component.outputs) (hrole : pin.role = other.role)
    (hindex : pin.index = other.index) : pin = other := by
  have hplace := h.inputs.place_cases h.outputs hpin
  rw [hrole, hindex] at hplace
  rcases h.inputs.place_cases h.outputs hother with ⟨hinput, hget⟩ | ⟨houtput, hget⟩
  · rw [hinput, hget] at hplace
    simpa [eq_comm] using hplace
  · rw [houtput, hget] at hplace
    simpa [eq_comm] using hplace

theorem role_ne_internal (h : component.IsOrderly)
    (hpin : pin ∈ component.inputs ++ component.outputs) : pin.role ≠ .internal := by
  rcases h.inputs.place_cases h.outputs hpin with ⟨hrole, -⟩ | ⟨hrole, -⟩
  · simp [hrole]
  · simp [hrole]

end Component.IsOrderly

namespace BusReference

theorem isName_of_parse {text name : String} {bits : Option (BitNumber × BitNumber)}
    (h : parse text = .ok (.pin name bits)) : IsName name.toList := by
  cases isReadable_of_parse h with
  | pin hname => exact hname

/-- A name without bits is all of its text but for the blanks around it. -/
theorem eq_trim_of_parse {text name : String} (h : parse text = .ok (.pin name none)) :
    name = String.ofList (Text.trim text.toList) := by
  obtain ⟨core, hcore, hspells⟩ := parse_eq_ok.mp h
  rw [Text.trim_eq_iff.mpr hcore]
  cases hspells
  rfl

end BusReference

/-- Whether no wire ends at a pin, neither from outside nor from a part of the component. -/
structure Component.Strands (component : Component) (pin : Pin) : Prop where
  /-- A wire to a part that is such a component. -/
  outside : ∀ (owner : String) (position : Nat) (references : String × String) (wire : OpenWire),
    Blueprint.openWire owner position component references = .ok wire → wire.pin ≠ pin
  /-- A wire from a part of the component. -/
  inside : ∀ part ∈ component.parts, ∀ wire ∈ part.wires, wire.owner ≠ .pin pin.role pin.index

namespace Blueprint

/-- Whether the name of a pin leads to the pin wherever it is spelled. -/
structure LeadsTo (blueprint : Blueprint) (component : Component) (pin : Pin) : Prop where
  reads : BusReference.parse pin.name = .ok (.pin pin.name none)
  /-- A wire to a part that is such a component. -/
  outside : ∀ (owner : String) (position : Nat) (far : String) (target : BusReference),
    BusReference.parse far = .ok target →
    openWire owner position component (pin.name, far) =
      .ok { part := position, component, pin, bits := none, owner := target }
  /-- A wire from a part of the component. -/
  inside : ∀ part ∈ component.parts, ∃ texts,
    blueprint.parts[part.position]? = some (part.component, texts) ∧
    List.Forall₂ (fun text wire => text.2 = pin.name →
      wire.owner = .pin pin.role pin.index ∧ wire.ownerBits = none) texts part.wires

variable {blueprint : Blueprint} {component : Component} {pin : Pin}

/-- A declared name means a pin without bits. -/
theorem parse_declared (hbuild : blueprint.build = .ok component)
    (hpin : pin ∈ component.inputs ++ component.outputs) :
    BusReference.parse pin.name = .ok (.pin pin.plainName none) := by
  obtain ⟨hinputs, houtputs⟩ := pins_of_build hbuild
  have hname : pin.name ∈ blueprint.declaredNames := by
    rw [← map_name_declaredPins, declaredPins, ← hinputs, ← houtputs]
    exact List.mem_map_of_mem hpin
  obtain ⟨declaration, hdeclaration, hsame⟩ := List.mem_map.mp hname
  obtain ⟨name, hparse⟩ := (declarations_of_build hbuild).names declaration hdeclaration
  rw [hsame] at hparse
  rw [hparse, BusReference.eq_trim_of_parse hparse, Pin.plainName]

/-- The internal pins of what has been built are those that its parts drive. -/
theorem found_of_build {interface : Interface} {internals : List Pin}
    {parts : List (Part Component)} {dependencies : Digraph Vertex}
    (hbuild : blueprint.build = .ok (.composite interface internals parts dependencies)) :
    ∃ wires, Found blueprint.declaredPins [] wires internals := by
  have hdistinct := (declarations_of_build hbuild).distinct
  rw [← map_name_declaredPins] at hdistinct
  obtain ⟨-, wires, found, joints, -, hfound, -, hassemble⟩ :=
    build_eq_ok (chip_of_build_composite hbuild) hbuild
  obtain ⟨-, hcomponent⟩ := assemble_eq_ok.mp hassemble
  cases hcomponent
  exact ⟨wires, found_of_findInternals (by rwa [List.append_nil]) hfound⟩

/-- The internal pins of what has been built are internal, and no name stands for two pins. -/
theorem internals_of_build {interface : Interface} {internals : List Pin}
    {parts : List (Part Component)} {dependencies : Digraph Vertex}
    (hbuild : blueprint.build = .ok (.composite interface internals parts dependencies)) :
    ((blueprint.declaredPins ++ internals).map Pin.name).Nodup ∧
      ∀ pin ∈ internals, pin.role = .internal := by
  obtain ⟨wires, hfound⟩ := found_of_build hbuild
  refine ⟨hfound.nodup, fun pin hpin => ?_⟩
  exact ((hfound.driven pin hpin).resolve_left (by simp)).1

/-- A name without blanks around it leads from outside to its pin. -/
theorem openWire_of_plain (hbuild : blueprint.build = .ok component)
    (hpin : pin ∈ component.inputs ++ component.outputs)
    (hreads : BusReference.parse pin.name = .ok (.pin pin.name none)) {owner far : String}
    {position : Nat} {target : BusReference} (hfar : BusReference.parse far = .ok target) :
    openWire owner position component (pin.name, far) =
      .ok { part := position, component, pin, bits := none, owner := target } :=
  @openWire_of_reads owner (position, component, pin.name, far) _
    ⟨rfl, rfl, hpin, ⟨none, hreads, .whole⟩, hfar⟩ (isOrderly_of_build hbuild).names

/-- The end of a wire that spells the name of a declared pin is the pin. -/
theorem eq_of_spelled {pins : List Pin} (hnames : (pins.map Pin.name).Nodup) (hpin : pin ∈ pins)
    {wire : Wire} (h : Endpoint.Spelled pins (.pin pin.name none) wire.owner wire.ownerBits) :
    wire.owner = .pin pin.role pin.index ∧ wire.ownerBits = none := by
  generalize howner : wire.owner = owner at h
  generalize hbits : wire.ownerBits = ownerBits at h
  generalize hname : pin.name = name at h
  cases h with
  | pin hother hmeant =>
    have hsame := List.inj_on_of_nodup_map hnames hpin hother hname
    cases hmeant
    exact ⟨by rw [hsame], rfl⟩

theorem wires_of_plain (hbuild : blueprint.build = .ok component)
    (hpin : pin ∈ component.inputs ++ component.outputs)
    (hreads : BusReference.parse pin.name = .ok (.pin pin.name none)) :
    ∀ part ∈ component.parts, ∃ texts,
      blueprint.parts[part.position]? = some (part.component, texts) ∧
      List.Forall₂ (fun text wire => text.2 = pin.name →
        wire.owner = .pin pin.role pin.index ∧ wire.ownerBits = none) texts part.wires := by
  cases component with
  | builtIn interface chip => simp [Component.parts]
  | composite interface internals parts dependencies =>
    obtain ⟨hnames, -⟩ := internals_of_build hbuild
    obtain ⟨joints, -, hrenders, hpins, -, -, rfl⟩ := exists_joining hbuild
    intro part hpart
    obtain ⟨texts, hget, hwires⟩ :=
      wires_of_part? hrenders (Joinery.mem_sortedParts_iff.mp hpart).2
    refine ⟨texts, hget, hwires.imp fun text wire hspelled hsame => ?_⟩
    obtain ⟨reference, hfar, hend⟩ := hspelled.far
    rw [hsame, hreads] at hfar
    cases hfar
    exact eq_of_spelled hnames (List.mem_append_left _ (hpins ▸ hpin)) hend

/-- No wire from outside ends at a pin whose name is not one. -/
theorem pin_ne_of_openWire (hname : ¬ IsName pin.name.toList) {owner : String} {position : Nat}
    {references : String × String} {wire : OpenWire}
    (h : openWire owner position component references = .ok wire) : wire.pin ≠ pin := by
  rintro rfl
  obtain ⟨bits, hnear, -⟩ := (reads_of_openWire h).near
  exact hname (BusReference.isName_of_parse hnear)

theorem owner_ne_of_mem_wires (hbuild : blueprint.build = .ok component)
    (hpin : pin ∈ component.inputs ++ component.outputs) (hname : ¬ IsName pin.name.toList) :
    ∀ part ∈ component.parts, ∀ wire ∈ part.wires, wire.owner ≠ .pin pin.role pin.index := by
  have horderly := isOrderly_of_build hbuild
  cases component with
  | builtIn interface chip => simp [Component.parts]
  | composite interface internals parts dependencies =>
    obtain ⟨-, hinternals⟩ := internals_of_build hbuild
    obtain ⟨joints, -, hrenders, hpins, -, -, rfl⟩ := exists_joining hbuild
    intro part hpart wire hwire howner
    obtain ⟨texts, -, hwires⟩ :=
      wires_of_part? hrenders (Joinery.mem_sortedParts_iff.mp hpart).2
    obtain ⟨text, -, hspelled⟩ := exists_of_forall₂ hwires hwire
    obtain ⟨reference, hfar, hend⟩ := hspelled.far
    generalize wire.ownerBits = ownerBits at hend
    rw [howner] at hend
    generalize hrole : pin.role = role at hend
    generalize hindex : pin.index = index at hend
    cases hend with
    | @pin other bits span hother hmeant =>
      rcases List.mem_append.mp hother with hdeclared | hinternal
      · rw [← hpins] at hdeclared
        obtain rfl := horderly.eq_of_place hpin hdeclared hrole hindex
        exact hname (BusReference.isName_of_parse hfar)
      · exact horderly.role_ne_internal hpin (hrole.trans (hinternals other hinternal))

/-- A declared pin can be wired by its name if and only if there are no blanks around the name, and
cannot be wired at all otherwise. -/
theorem leadsTo_iff_plain (hbuild : blueprint.build = .ok component)
    (hpin : pin ∈ component.inputs ++ component.outputs) :
    BusReference.parse pin.name = .ok (.pin pin.plainName none) ∧
      (blueprint.LeadsTo component pin ↔ pin.plainName = pin.name) ∧
      (component.Strands pin ↔ pin.plainName ≠ pin.name) := by
  have hreads := parse_declared hbuild hpin
  refine ⟨hreads, ⟨fun hleads => ?_, fun hplain => ?_⟩, fun hstrands hplain => ?_, fun hplain => ?_⟩
  · rw [hleads.reads] at hreads
    exact (BusReference.pin.inj (Except.ok.inj hreads)).1.symm
  · rw [hplain] at hreads
    exact ⟨hreads, fun _ _ _ _ hfar => openWire_of_plain hbuild hpin hreads hfar,
      wires_of_plain hbuild hpin hreads⟩
  · rw [hplain] at hreads
    have hones : BusReference.parse "true" = .ok .ones := by decide +kernel
    exact hstrands.outside "" 0 _ _ (openWire_of_plain hbuild hpin hreads hones) rfl
  · have hname : ¬ IsName pin.name.toList := fun hname => hplain (by
      rw [Pin.plainName, Text.trim_eq_iff.mpr hname.trimsTo, String.ofList_toList])
    exact ⟨fun _ _ _ _ hopen => pin_ne_of_openWire hname hopen,
      owner_ne_of_mem_wires hbuild hpin hname⟩

/-- An inverter whose output is declared with a blank before its name. -/
def padded : Blueprint where
  name := "Padded"
  inputs := [("in", 1)]
  outputs := [(" out", 1)]
  clocked := []
  parts := [(Primitive.not.component, [("in", "in"), ("out", " out")])]
  chip := none

theorem exists_padded : ∃ component, padded.build = .ok component ∧ component.name = "Padded" ∧
    component.inputs = [⟨"in", 1, .input, 0⟩] ∧ component.outputs = [⟨" out", 1, .output, 0⟩] ∧
    (component.parts.map fun part => part.wires.map (·.owner)) =
      [[.pin .input 0, .pin .internal 0]] := by
  have hok : (padded.build.toOption.any fun component => component.name = "Padded" ∧
      component.inputs = [⟨"in", 1, .input, 0⟩] ∧ component.outputs = [⟨" out", 1, .output, 0⟩] ∧
      (component.parts.map fun part => part.wires.map (·.owner)) =
        [[.pin .input 0, .pin .internal 0]]) = true := by decide +kernel
  obtain ⟨component, hbuild, hsame⟩ := exists_of_any_toOption hok
  exact ⟨component, hbuild, of_decide_eq_true hsame⟩

/-- The input of the inverter can be wired by its name, and its output cannot be wired. -/
theorem leadsTo_iff_plain_padded : ∃ component input output,
    padded.build = .ok component ∧ input ∈ component.inputs ++ component.outputs ∧
    output ∈ component.inputs ++ component.outputs ∧ input.name = "in" ∧ output.name = " out" ∧
    padded.LeadsTo component input ∧ component.Strands output := by
  obtain ⟨component, hbuild, -, hinputs, houtputs, -⟩ := exists_padded
  have hin : ⟨"in", 1, .input, 0⟩ ∈ component.inputs ++ component.outputs := by
    simp [hinputs]
  have hout : ⟨" out", 1, .output, 0⟩ ∈ component.inputs ++ component.outputs := by
    simp [houtputs]
  exact ⟨component, _, _, hbuild, hin, hout, rfl, rfl,
    (leadsTo_iff_plain hbuild hin).2.1.mpr (by decide +kernel),
    (leadsTo_iff_plain hbuild hout).2.2.mpr (by decide +kernel)⟩

/-- A declared name with a blank is read as a name that no declared pin has. Inside, the wire that
spells it ends at an internal pin; from outside it is refused. -/
theorem padded_output_lost : ∃ component output,
    padded.build = .ok component ∧ component.outputs = [output] ∧ output.name = " out" ∧
    BusReference.parse output.name = .ok (.pin "out" none) ∧
    (component.parts.map fun part => part.wires.map (·.owner)) =
      [[.pin .input 0, .pin .internal 0]] ∧
    openWire "User" 0 component (output.name, "x") =
      .error (.unknownPin "User" "Padded.out") := by
  have hparse : BusReference.parse " out" = .ok (.pin "out" none) := by decide +kernel
  obtain ⟨component, hbuild, hname, hinputs, houtputs, howners⟩ := exists_padded
  refine ⟨component, _, hbuild, houtputs, rfl, hparse, howners, ?_⟩
  have hfind : Pin.find? (component.inputs ++ component.outputs) "out" = none := by
    rw [hinputs, houtputs]
    decide +kernel
  unfold openWire
  simp only [hparse, bind, Except.bind, hfind, hname]
  rfl

end Blueprint

end ClockedLogic
