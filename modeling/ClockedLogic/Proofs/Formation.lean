import ClockedLogic.Proofs.CycleCheck

/-!
How components that have been built are formed. Every pin stands at the place that its role and
index tell, has a width that a bus can have and a name of its own, so that looking up names and
looking up places find the same pins. Every wire of a part joins bits that are there, no two wires
drive one bit, and each pin between parts is driven as a whole, by one wire and no other.
-/

namespace ClockedLogic

namespace Wire

def drives (role : PinRole) (index : Nat) (wire : Wire) : Bool :=
  decide (wire.partRole = .output ∧ wire.owner = .pin role index)

def MeetInside (part : Component) (a b : Wire) : Prop :=
  ∃ index pin bit, a.joins .input index = true ∧ b.joins .input index = true ∧
    part.pinAt? .input index = some pin ∧
    (pin.spanOf a.partBits).Covers bit ∧ (pin.spanOf b.partBits).Covers bit

def MeetOutside (owner : Component) (a b : Wire) : Prop :=
  ∃ role index pin bit, a.drives role index = true ∧ b.drives role index = true ∧
    owner.pinAt? role index = some pin ∧
    (pin.spanOf a.ownerBits).Covers bit ∧ (pin.spanOf b.ownerBits).Covers bit

theorem drives_eq_true {role : PinRole} {index : Nat} {wire : Wire} :
    wire.drives role index = true ↔ wire.partRole = .output ∧ wire.owner = .pin role index :=
  decide_eq_true_iff

theorem joins_eq_true {role : PinRole} {index : Nat} {wire : Wire} :
    wire.joins role index = true ↔ wire.partRole = role ∧ wire.partIndex = index :=
  decide_eq_true_iff

end Wire

namespace Component

def wires (component : Component) : List Wire := component.parts.flatMap (·.wires)

/-- How a component is formed whose blueprint has passed all checks. -/
structure WellFormed (component : Component) : Prop where
  places : ∀ role, PinsInOrder role (component.pinsOf role)
  names : (component.pins.map Pin.name).Nodup
  /-- A pin has its name and its place to itself. -/
  lookup : ∀ name pin, component.pin? name = some pin ↔
    pin.name = name ∧ component.pinAt? pin.role pin.index = some pin
  /-- Wires join pins that are there, equally many bits of each, in a direction that is allowed. -/
  fits : ∀ part ∈ component.parts, ∀ wire ∈ part.wires,
    wire.Fits part.component component.pinsOf
  inside : ∀ part ∈ component.parts,
    part.wires.Pairwise fun a b => ¬ a.MeetInside part.component b
  outside : component.wires.Pairwise fun a b => ¬ a.MeetOutside component b
  /-- One wire drives an internal pin, the whole of it. -/
  driven : ∀ index pin, component.pinAt? .internal index = some pin →
    ∃ wire, component.wires.filter (Wire.drives .internal index) = [wire] ∧ wire.ownerBits = none

variable {component : Component}

theorem pin?_eq_some_iff (hplaces : ∀ role, PinsInOrder role (component.pinsOf role))
    (hnames : (component.pins.map Pin.name).Nodup) {name : String} {pin : Pin} :
    component.pin? name = some pin ↔
      pin.name = name ∧ component.pinAt? pin.role pin.index = some pin := by
  rw [pin?, Pin.find?_eq_some_iff hnames, and_comm]
  exact and_congr_right' (mem_pins_iff_getElem? hplaces)

/-- A pin that is driven as a whole, by wires that share no bit of it, is driven by one wire. -/
theorem exists_sole_driver {role : PinRole} {index : Nat} {pin : Pin}
    (hpin : component.pinAt? role index = some pin)
    (houtside : component.wires.Pairwise fun a b => ¬ a.MeetOutside component b)
    (hwhole : ∀ wire ∈ component.wires, wire.drives role index = true → wire.ownerBits = none)
    (hdriven : ∃ wire ∈ component.wires, wire.drives role index = true) :
    ∃ wire, component.wires.filter (Wire.drives role index) = [wire] ∧ wire.ownerBits = none := by
  have hpairs := houtside.filter (Wire.drives role index)
  have hmem : ∀ wire ∈ component.wires.filter (Wire.drives role index),
      wire.drives role index = true ∧ wire.ownerBits = none := by
    intro wire hwire
    obtain ⟨hwire, hdrives⟩ := List.mem_filter.mp hwire
    exact ⟨hdrives, hwhole wire hwire hdrives⟩
  obtain ⟨driver, hdriver, hdrives⟩ := hdriven
  have hfound := List.mem_filter.mpr ⟨hdriver, hdrives⟩
  match hfilter : component.wires.filter (Wire.drives role index) with
  | [] => rw [hfilter] at hfound; cases hfound
  | [wire] => exact ⟨wire, rfl, (hmem wire (by simp [hfilter])).2⟩
  | first :: second :: rest =>
    rw [hfilter] at hpairs hmem
    obtain ⟨hfirst, hfirstBits⟩ := hmem first (by simp)
    obtain ⟨hsecond, hsecondBits⟩ := hmem second (by simp)
    refine absurd ?_ (List.rel_of_pairwise_cons hpairs List.mem_cons_self)
    refine ⟨role, index, pin, 0, hfirst, hsecond, hpin, ?_, ?_⟩
    · rw [hfirstBits]
      exact ⟨Nat.zero_le _, Nat.zero_le _⟩
    · rw [hsecondBits]
      exact ⟨Nat.zero_le _, Nat.zero_le _⟩

end Component

section Fitting

variable {interface : Interface} {internals : List Pin} {parts : List (Part Component)}
  {dependencies : Digraph Vertex}

/-- Wires into one part of a fitted component share no bit of its inputs. -/
theorem Fitting.pairwise_inside {pinsOf : PinRole → List Pin}
    (h : Fitting interface internals parts pinsOf) {part : Part Component} (hpart : part ∈ parts) :
    part.wires.Pairwise fun a b => ¬ a.MeetInside part.component b := by
  refine (h.nodup part hpart).imp_of_mem fun {a b} ha hb hne hmeet => ?_
  obtain ⟨index, pin, bit, hjoins, hjoins', hpin, hcovers, hcovers'⟩ := hmeet
  obtain ⟨hinput, rfl⟩ := Wire.joins_eq_true.mp hjoins
  obtain ⟨hinput', hindex⟩ := Wire.joins_eq_true.mp hjoins'
  have hapart := h.inputs_apart part hpart a ha b hb hne hinput hinput' hindex.symm pin hpin
  rw [BitSpan.overlaps_iff.mpr ⟨bit, hcovers, hcovers'⟩] at hapart
  cases hapart

/-- Wires of all parts of a fitted component share no bit of its pins. -/
theorem Fitting.pairwise_outside
    (h : Fitting interface internals parts
      (Component.composite interface internals parts dependencies).pinsOf) :
    (Component.composite interface internals parts dependencies).wires.Pairwise
      fun a b => ¬ a.MeetOutside (.composite interface internals parts dependencies) b := by
  have hapart : ∀ part ∈ parts, ∀ other ∈ parts, ∀ a ∈ part.wires, ∀ b ∈ other.wires,
      ¬ (part.position = other.position ∧ a = b) →
      ¬ a.MeetOutside (.composite interface internals parts dependencies) b := by
    rintro part hpart other hother a ha b hb hne
      ⟨role, index, pin, bit, hdrives, hdrives', hpin, hcovers, hcovers'⟩
    obtain ⟨houtput, howner⟩ := Wire.drives_eq_true.mp hdrives
    obtain ⟨houtput', howner'⟩ := Wire.drives_eq_true.mp hdrives'
    have hfree := h.outputs_apart part hpart other hother a ha b hb hne houtput houtput' role index
      howner howner' pin hpin
    rw [BitSpan.overlaps_iff.mpr ⟨bit, hcovers, hcovers'⟩] at hfree
    cases hfree
  refine List.pairwise_flatMap.mpr ⟨fun part hpart => ?_, ?_⟩
  · refine (h.nodup part hpart).imp_of_mem fun {a b} ha hb hne => ?_
    exact hapart part hpart part hpart a ha b hb fun hsame => hne hsame.2
  · refine (List.pairwise_map.mp h.positions).imp_of_mem fun {part other} hpart hother hne => ?_
    exact fun a ha b hb => hapart part hpart other hother a ha b hb fun hsame => hne hsame.1

end Fitting

/-- Primitives and everything built of them have been built from some blueprint. -/
theorem Built.exists_blueprint {component : Component} (h : Built component) :
    ∃ blueprint : Blueprint, (∀ part ∈ blueprint.parts, Built part.1) ∧
      blueprint.build = .ok component := by
  cases h with
  | primitive kind => exact ⟨kind.blueprint, by simp [Primitive.blueprint], kind.build_blueprint⟩
  | build hparts hbuild => exact ⟨_, hparts, hbuild⟩

theorem Built.isOrderly {component : Component} (h : Built component) : component.IsOrderly := by
  obtain ⟨blueprint, -, hbuild⟩ := h.exists_blueprint
  exact Blueprint.isOrderly_of_build hbuild

namespace Blueprint

variable {blueprint : Blueprint} {component : Component}

theorem exists_jointed_of_build (hparts : ∀ part ∈ blueprint.parts, Built part.1)
    (hchip : blueprint.chip = none) (hbuild : blueprint.build = .ok component) :
    ∃ wires internals joints, blueprint.Jointed wires internals joints ∧
      blueprint.Joinery internals joints ∧
      component = blueprint.laidOut internals joints
        ((blueprint.dependencies joints).traverse .root).order := by
  obtain ⟨hcheck, wires, internals, joints, hwires, hinternals, hjoints, hassemble⟩ :=
    build_eq_ok hchip hbuild
  have hscanned := scanned (checkDeclarations_eq_ok.mp hcheck)
    (fun part hpart => (hparts part hpart).isOrderly) hwires hinternals
  have hjoinery := joinery_of_fitted (fun part hpart => (hparts part hpart).fitted) hcheck hwires
    hinternals hjoints
  obtain ⟨_, rfl, hjoined, -⟩ := (joinWires_eq_ok .nil).mp hjoints
  exact ⟨wires, internals, _,
    ⟨hscanned, hjoined.imp fun _ _ hjoin => OpenWire.joined_of_join hjoin⟩, hjoinery,
    (assemble_eq_ok.mp hassemble).2⟩

theorem Jointed.exists_driver {wires : List OpenWire} {internals : List Pin} {joints : List Joint}
    (h : blueprint.Jointed wires internals joints) {pin : Pin} (hpin : pin ∈ internals) :
    ∃ joint ∈ joints, joint.part < blueprint.parts.length ∧
      joint.wire.drives .internal pin.index = true := by
  obtain ⟨hinternal, wire, hwire, hdriver, howner, -⟩ :=
    (h.scanned.found.driven pin hpin).resolve_left List.not_mem_nil
  obtain ⟨joint, hjoint, hjoined⟩ := exists_of_forall₂ h.joined.flip hwire
  obtain ⟨far, hfar, _, _, hname, -, -, -, -, rfl⟩ := hjoined.of_output hdriver
  obtain ⟨hsame, -⟩ := BusReference.pin.inj (howner.symm.trans hname)
  obtain rfl := h.scanned.eq_of_name (List.mem_append_right _ hpin) hfar hsame
  obtain ⟨_, hget⟩ := (h.scanned.opened wire hwire).part
  refine ⟨_, hjoint, (List.getElem?_eq_some_iff.mp hget).1, Wire.drives_eq_true.mpr ⟨rfl, ?_⟩⟩
  rw [← hinternal]
  rfl

theorem mem_wires_laidOut {internals : List Pin} {joints : List Joint} {joint : Joint}
    (hjoint : joint ∈ joints) (hpart : joint.part < blueprint.parts.length) :
    joint.wire ∈ (blueprint.laidOut internals joints
      ((blueprint.dependencies joints).traverse .root).order).wires := by
  obtain ⟨part, hmade⟩ : ∃ part, blueprint.part? joints joint.part = some part := by
    simp [part?, List.getElem?_eq_getElem hpart]
  obtain ⟨hposition, -, hwires⟩ := Joinery.of_part? hmade
  refine List.mem_flatMap.mpr ⟨part, ?_, (hwires _).mpr ⟨joint, hjoint, rfl, rfl⟩⟩
  rw [mem_parts_laidOut fun _ hlt => part_mem_order_traverse hlt, hposition, hmade]

/-- No two pins of what has been built have one name, internal pins included. -/
theorem nodup_names_of_build (hparts : ∀ part ∈ blueprint.parts, Built part.1)
    (hbuild : blueprint.build = .ok component) : (component.pins.map Pin.name).Nodup := by
  cases hchip : blueprint.chip with
  | none =>
    obtain ⟨wires, internals, joints, hjointed, -, rfl⟩ :=
      exists_jointed_of_build hparts hchip hbuild
    exact hjointed.scanned.found.nodup
  | some chip =>
    have hnames := (isOrderly_of_build hbuild).names
    obtain ⟨-, -, rfl⟩ := build_chip_eq_ok hchip hbuild
    simpa [Component.pins, Component.internals, buildBuiltIn] using hnames

/-- An internal pin of what has been built is driven, and whatever drives it drives all of it. -/
theorem driven_of_build (hparts : ∀ part ∈ blueprint.parts, Built part.1)
    (hbuild : blueprint.build = .ok component) {index : Nat} {pin : Pin}
    (hpin : component.pinAt? .internal index = some pin) :
    (∃ wire ∈ component.wires, wire.drives .internal index = true) ∧
      ∀ wire ∈ component.wires, wire.drives .internal index = true → wire.ownerBits = none := by
  cases hchip : blueprint.chip with
  | none =>
    obtain ⟨wires, internals, joints, hjointed, hjoinery, rfl⟩ :=
      exists_jointed_of_build hparts hchip hbuild
    obtain ⟨-, rfl, -⟩ := hjoinery.pinsInOrder .internal index pin hpin
    obtain ⟨joint, hjoint, hpart, hdrives⟩ := hjointed.exists_driver (List.mem_of_getElem? hpin)
    refine ⟨⟨joint.wire, mem_wires_laidOut hjoint hpart, hdrives⟩, fun wire hwire hdrives => ?_⟩
    obtain ⟨part, hpart, hwire⟩ := List.mem_flatMap.mp hwire
    obtain ⟨houtput, howner⟩ := Wire.drives_eq_true.mp hdrives
    exact hjoinery.wired.whole part hpart wire hwire houtput _ howner
  | some chip =>
    obtain ⟨-, -, rfl⟩ := build_chip_eq_ok hchip hbuild
    cases hpin

end Blueprint

/-- Whatever has been built is well formed: each check that building makes leaves behind what is
asked of the pins and the wires. -/
theorem Built.wellFormed {component : Component} (h : Built component) : component.WellFormed := by
  obtain ⟨blueprint, hparts, hbuild⟩ := h.exists_blueprint
  have hfitted := h.fitted
  have hplaces := hfitted.pinsInOrder
  have hnames := Blueprint.nodup_names_of_build hparts hbuild
  have hlookup : ∀ name pin, component.pin? name = some pin ↔
      pin.name = name ∧ component.pinAt? pin.role pin.index = some pin :=
    fun _ _ => Component.pin?_eq_some_iff hplaces hnames
  cases hfitted with
  | builtIn =>
    refine ⟨hplaces, hnames, hlookup, fun part hpart => ?_, fun part hpart => ?_, List.Pairwise.nil,
      fun index pin hpin => ?_⟩
    · cases hpart
    · cases hpart
    · cases hpin
  | composite _ hfitting =>
    refine ⟨hplaces, hnames, hlookup, hfitting.fits, fun _ hpart => hfitting.pairwise_inside hpart,
      hfitting.pairwise_outside, fun index pin hpin => ?_⟩
    obtain ⟨hdriven, hwhole⟩ := Blueprint.driven_of_build hparts hbuild hpin
    exact Component.exists_sole_driver hpin hfitting.pairwise_outside hwhole hdriven

/-- In a register that is fed back, the names of the two internal pins lead to their places, and
each has a wire to itself. -/
theorem Built.wellFormed_toggler : ∃ component, Blueprint.toggler.build = .ok component ∧
    Built component ∧ component.WellFormed ∧
    component.pinAt? .internal 1 = some ⟨"state", 1, .internal, 1⟩ ∧
    component.pin? "state" = some ⟨"state", 1, .internal, 1⟩ ∧
    ∃ wire, component.wires.filter (Wire.drives .internal 1) = [wire] ∧
      wire.ownerBits = none := by
  have hok : (Blueprint.toggler.build.toOption.any fun component =>
      component.internals = [⟨"next", 1, .internal, 0⟩, ⟨"state", 1, .internal, 1⟩]) = true := by
    decide +kernel
  obtain ⟨component, hbuild, hinternals⟩ := exists_of_any_toOption hok
  obtain ⟨other, hother, hstandard⟩ := Blueprint.exists_toggler
  obtain rfl := Except.ok.inj (hbuild.symm.trans hother)
  have hplace : component.pinAt? .internal 1 = some ⟨"state", 1, .internal, 1⟩ := by
    rw [Component.pinAt?, Component.pinsOf, of_decide_eq_true hinternals]
    rfl
  have hformed := Built.wellFormed hstandard.built
  exact ⟨component, hbuild, hstandard.built, hformed, hplace,
    (hformed.lookup _ _).mpr ⟨rfl, hplace⟩, hformed.driven 1 _ hplace⟩

end ClockedLogic
