import ClockedLogic.Proofs.Acceptance
import ClockedLogic.Proofs.FlatDesign

/-!
What the check for loops refuses. No other check speaks of a loop, so a blueprint that is refused
for one has wires that have all been joined, and parts that feed each other in a circle. A part
counts as one vertex: where all parts of the circle are open it is a loop of built in gates, and
where a part has inputs that do not get to all of its outputs it need not be one.
-/

namespace ClockedLogic

theorem except_bind_eq_error {ε α β : Type} {first : Except ε α} {next : α → Except ε β}
    {error : ε} : (first >>= next) = .error error ↔
      first = .error error ∨ ∃ value, first = .ok value ∧ next value = .error error := by
  cases first <;> simp [bind, Except.bind]

def Loopless {α : Type} (result : Except DesignError α) : Prop :=
  ∀ owner through, result ≠ .error (.combinationalCycle owner through)

@[simp]
theorem loopless_ok {α : Type} (value : α) : Loopless (.ok value) := by simp [Loopless]

@[simp]
theorem loopless_pure {α : Type} (value : α) : Loopless (pure value) := loopless_ok value

@[simp]
theorem loopless_error {α : Type} {error : DesignError} :
    Loopless (.error error : Except DesignError α) ↔
      ∀ owner through, error ≠ .combinationalCycle owner through := by simp [Loopless]

@[simp]
theorem loopless_throw {α : Type} {error : DesignError} :
    Loopless (throw error : Except DesignError α) ↔
      ∀ owner through, error ≠ .combinationalCycle owner through := loopless_error

theorem Loopless.bind {α β : Type} {first : Except DesignError α} {next : α → Except DesignError β}
    (h : Loopless first) (hnext : ∀ value, Loopless (next value)) : Loopless (first >>= next) := by
  intro owner through herror
  rcases except_bind_eq_error.mp herror with hfirst | ⟨value, -, hvalue⟩
  · exact h owner through hfirst
  · exact hnext value owner through hvalue

theorem BusReference.loopless_parse (text : String) : Loopless (BusReference.parse text) := by
  unfold BusReference.parse
  split <;> simp

namespace Blueprint

theorem loopless_checkPins (owner : String) (declarations : List (String × Nat)) :
    Loopless (checkPins owner declarations) := by
  induction declarations with
  | nil => simp [checkPins]
  | cons declaration rest ih =>
    refine Loopless.bind ((BusReference.loopless_parse _).bind fun reference => ?_) fun _ => ih
    split
    · split <;> simp
    · simp

theorem loopless_checkDeclarations (blueprint : Blueprint) :
    Loopless blueprint.checkDeclarations := by
  refine (loopless_checkPins _ _).bind fun _ => (loopless_checkPins _ _).bind fun _ =>
    Loopless.bind ?_ fun _ => ?_
  · unfold checkNames
    split <;> simp
  · unfold checkClocked
    split <;> simp

theorem loopless_spanWithin (owner pin : String) (width : Nat)
    (bits : Option (BitNumber × BitNumber)) : Loopless (spanWithin owner pin width bits) := by
  unfold spanWithin
  split
  · simp
  · split
    · split <;> simp
    · simp

theorem loopless_openWires (owner : String)
    (texts : List (Nat × Component × (String × String))) : Loopless (openWires owner texts) := by
  induction texts with
  | nil => simp [openWires]
  | cons text rest ih =>
    refine Loopless.bind ?_ fun _ => ih.bind fun _ => by simp
    refine (BusReference.loopless_parse _).bind fun reference => ?_
    split
    · split
      · exact (loopless_spanWithin _ _ _ _).bind fun _ =>
          (BusReference.loopless_parse _).bind fun _ => by simp
      · simp
    · simp

theorem loopless_findInternals (owner : String) (declared found : List Pin)
    (wires : List OpenWire) : Loopless (findInternals owner declared found wires) := by
  induction wires generalizing found with
  | nil => simp [findInternals]
  | cons wire rest ih =>
    unfold findInternals
    split
    · split
      · exact ih _
      · split
        · simp
        · exact ih _
    · exact ih _

end Blueprint

namespace OpenWire

theorem loopless_ownerSpan (owner name : String) (wire : OpenWire) (pin : Pin)
    (bits : Option (BitNumber × BitNumber)) : Loopless (wire.ownerSpan owner pin name bits) := by
  refine (Blueprint.loopless_spanWithin _ _ _ _).bind fun span => ?_
  split <;> simp

theorem loopless_join (owner : String) (pins : List Pin) (wire : OpenWire) :
    Loopless (wire.join owner pins) := by
  unfold join
  split
  · unfold joinSource
    split
    · simp
    · simp
    · split
      · simp
      · split
        · simp
        · exact (loopless_ownerSpan _ _ _ _ _).bind fun _ => by simp
  · unfold joinTarget
    split
    · simp
    · simp
    · split
      · simp
      · split
        · simp
        · split
          · simp
          · exact (loopless_ownerSpan _ _ _ _ _).bind fun _ => by
              simp

end OpenWire

namespace Blueprint

theorem loopless_joinWires (owner : String) (pins : List Pin) (joined : List Joint)
    (wires : List OpenWire) : Loopless (joinWires owner pins joined wires) := by
  induction wires generalizing joined with
  | nil => simp [joinWires]
  | cons wire rest ih =>
    refine (wire.loopless_join owner pins).bind fun joint => ?_
    split
    · simp
    · exact ih _

/-- A blueprint that is refused for a loop has passed all other checks. -/
theorem circle_of_build {blueprint : Blueprint} {owner through : String}
    (h : blueprint.build = .error (.combinationalCycle owner through)) :
    blueprint.checkDeclarations = .ok () ∧ ∃ wires internals joints,
      openWires blueprint.name blueprint.wireTexts = .ok wires ∧
      findInternals blueprint.name blueprint.declaredPins [] wires = .ok internals ∧
      joinWires blueprint.name (blueprint.declaredPins ++ internals) [] wires = .ok joints ∧
      ((blueprint.dependencies joints).traverse .root).circle ≠ none := by
  unfold build at h
  obtain ⟨_, hcheck, h⟩ := (except_bind_eq_error.mp h).resolve_left
    (blueprint.loopless_checkDeclarations owner through)
  split at h
  · split at h <;> cases h
  · obtain ⟨wires, hwires, h⟩ :=
      (except_bind_eq_error.mp h).resolve_left (loopless_openWires _ _ owner through)
    obtain ⟨internals, hinternals, h⟩ :=
      (except_bind_eq_error.mp h).resolve_left (loopless_findInternals _ _ _ _ owner through)
    obtain ⟨joints, hjoints, h⟩ :=
      (except_bind_eq_error.mp h).resolve_left (loopless_joinWires _ _ _ _ owner through)
    refine ⟨hcheck, wires, internals, joints, hwires, hinternals, hjoints, fun hnone => ?_⟩
    unfold assemble at h
    simp only [hnone] at h
    cases h

def declarationOrder (blueprint : Blueprint) : List Vertex :=
  (List.range blueprint.parts.length).map .part

/-- What a blueprint describes, with its parts in the order of declaration, whether or not they feed
each other in a circle. -/
def unsorted (blueprint : Blueprint) : Except DesignError Component := do
  let wires ← openWires blueprint.name blueprint.wireTexts
  let internals ← findInternals blueprint.name blueprint.declaredPins [] wires
  let joints ← joinWires blueprint.name (blueprint.declaredPins ++ internals) [] wires
  return blueprint.laidOut internals joints blueprint.declarationOrder

section LaidOut

variable {blueprint : Blueprint} {internals : List Pin} {joints : List Joint} {order : List Vertex}

theorem mem_parts_laidOut (horder : ∀ position < blueprint.parts.length, .part position ∈ order)
    {part : Part Component} : part ∈ (blueprint.laidOut internals joints order).parts ↔
      blueprint.part? joints part.position = some part := by
  rw [parts_laidOut, Joinery.mem_sortedParts_iff]
  refine and_iff_right_of_imp fun hpart => ?_
  obtain ⟨-, ⟨_, hget⟩, -⟩ := Joinery.of_part? hpart
  exact horder _ (List.getElem?_eq_some_iff.mp hget).1

theorem mem_parts_declared {part : Part Component} :
    part ∈ (blueprint.laidOut internals joints blueprint.declarationOrder).parts ↔
      blueprint.part? joints part.position = some part :=
  mem_parts_laidOut fun _ hlt => List.mem_map_of_mem (List.mem_range.mpr hlt)

/-- The search meets every part, since the root comes before all of them. -/
theorem part_mem_order_traverse {position : Nat} (h : position < blueprint.parts.length) :
    .part position ∈ ((blueprint.dependencies joints).traverse .root).order :=
  Digraph.mem_order_traverse (blueprint.coherent_dependencies joints)
    (blueprint.root_mem_dependencies joints)
    (.single (blueprint.hasEdge_root joints (.inr ⟨position, h, rfl⟩)))

/-- A blueprint describes the component that it is built to, apart from the order of the parts. -/
theorem unsorted_of_build {component : Component} (hchip : blueprint.chip = none)
    (h : blueprint.build = .ok component) : ∃ flat, blueprint.unsorted = .ok flat ∧
      flat.pinsOf = component.pinsOf ∧ ∀ part, part ∈ flat.parts ↔ part ∈ component.parts := by
  obtain ⟨-, wires, internals, joints, hwires, hinternals, hjoints, hassemble⟩ :=
    build_eq_ok hchip h
  obtain ⟨-, rfl⟩ := assemble_eq_ok.mp hassemble
  refine ⟨_, except_bind_eq_ok.mpr ⟨wires, hwires, except_bind_eq_ok.mpr ⟨internals, hinternals,
    except_bind_eq_ok.mpr ⟨joints, hjoints, rfl⟩⟩⟩, ?_, fun part => ?_⟩
  · rw [pinsOf_laidOut, pinsOf_laidOut]
  · rw [mem_parts_declared, mem_parts_laidOut fun _ hlt => part_mem_order_traverse hlt]

theorem Joinery.wired (h : blueprint.Joinery internals joints) :
    (blueprint.laidOut internals joints order).Wired where
  pins := by
    rw [pinsOf_laidOut]
    exact h.pinsInOrder
  partPins part hpart := by
    obtain ⟨⟨_, hget⟩, -⟩ :=
      Joinery.mem_sortedParts (show part ∈ blueprint.sortedParts joints order from hpart)
    exact (h.fitted _ (List.mem_of_getElem? hget)).pinsInOrder
  fits part hpart wire hwire := by
    rw [pinsOf_laidOut]
    exact h.fits_of_mem_wires (show part ∈ blueprint.sortedParts joints order from hpart) hwire
  whole part hpart wire hwire houtput index howner := by
    obtain ⟨joint, -, -, rfl, opened, -, -, -, hjoined⟩ :=
      h.joined_of_mem_wires (show part ∈ blueprint.sortedParts joints order from hpart) hwire
    cases hjoined with
    | ones => cases houtput
    | zeros => cases houtput
    | read => cases houtput
    | drive _ _ _ _ hwhole hmeant _ =>
      obtain ⟨hrole, -⟩ := Endpoint.pin.inj howner
      rw [hwhole hrole] at hmeant
      cases hmeant
      rfl

end LaidOut

namespace Jointed

variable {blueprint : Blueprint} {wires : List OpenWire} {internals : List Pin}
  {joints : List Joint}

/-- The joints by which a part feeds another one meet at a pin between parts, since inputs are not
driven and outputs are not read. -/
theorem exists_joints_of_feeds (h : blueprint.Jointed wires internals joints) {a b : Nat}
    (hfeeds : Feeds wires a b) : ∃ index, ∃ driver ∈ joints, ∃ reader ∈ joints,
      driver.part = a ∧ driver.wire.partRole = .output ∧
      driver.wire.owner = .pin .internal index ∧ reader.part = b ∧
      reader.wire.partRole = .input ∧ reader.wire.owner = .pin .internal index ∧
      ∃ part ∈ blueprint.parts[b]?, part.1.isInputClocked reader.wire.partIndex = false := by
  cases hfeeds with
  | intro hdriver hreader houtput hinput hclocked howner howner' =>
    obtain ⟨driver, hdriverJoint, hdrives⟩ := exists_of_forall₂ h.joined.flip hdriver
    obtain ⟨reader, hreaderJoint, hreads⟩ := exists_of_forall₂ h.joined.flip hreader
    obtain ⟨_, hpart⟩ := (h.scanned.opened _ hreader).part
    obtain ⟨pin, hpin, _, _, hfar, hrole, -, -, -, rfl⟩ := hdrives.of_output houtput
    obtain ⟨pin', hpin', hname, hrole', _, rfl⟩ := hreads.of_input hinput howner'
    obtain ⟨rfl, -⟩ := BusReference.pin.inj (howner.symm.trans hfar)
    obtain rfl := h.scanned.eq_of_name hpin' hpin hname
    have hinternal : pin'.role = .internal := by
      cases hpinRole : pin'.role with
      | input => exact absurd hpinRole hrole
      | output => exact absurd hpinRole hrole'
      | internal => rfl
    have hend : Endpoint.pin pin'.role pin'.index = .pin .internal pin'.index := by rw [hinternal]
    exact ⟨pin'.index, _, hdriverJoint, _, hreaderJoint, rfl, rfl, hend, rfl, rfl, hend, _, hpart,
      hclocked⟩

theorem feedsPart_of_feeds (h : blueprint.Jointed wires internals joints) {a b : Nat}
    (hfeeds : Feeds wires a b) {part other : Part Component}
    (hpart : blueprint.part? joints a = some part)
    (hother : blueprint.part? joints b = some other) :
    (blueprint.laidOut internals joints blueprint.declarationOrder).FeedsPart part other := by
  obtain ⟨index, driver, hdriver, reader, hreader, rfl, houtput, howner, rfl, hinput, howner',
    _, hget, hclocked⟩ := h.exists_joints_of_feeds hfeeds
  obtain ⟨hposition, -, hwires⟩ := Joinery.of_part? hpart
  obtain ⟨hposition', ⟨_, hget'⟩, hwires'⟩ := Joinery.of_part? hother
  rw [hget'] at hget
  cases hget
  exact .intro (mem_parts_declared.mpr (hposition ▸ hpart))
    (mem_parts_declared.mpr (hposition' ▸ hother)) ((hwires _).mpr ⟨driver, hdriver, rfl, rfl⟩)
    ((hwires' _).mpr ⟨reader, hreader, rfl, rfl⟩) houtput hinput howner howner' hclocked

theorem exists_part?_of_feeds (h : blueprint.Jointed wires internals joints) {a b : Nat}
    (hfeeds : Feeds wires a b) : ∃ part, blueprint.part? joints a = some part := by
  cases hfeeds with
  | intro hdriver =>
    obtain ⟨_, hget⟩ := (h.scanned.opened _ hdriver).part
    exact ⟨_, Option.map_eq_some_iff.mpr ⟨_, hget, rfl⟩⟩

theorem transGen_feedsPart (h : blueprint.Jointed wires internals joints) {a b : Nat}
    (hpath : Relation.TransGen (Feeds wires) a b) {part other : Part Component}
    (hpart : blueprint.part? joints a = some part)
    (hother : blueprint.part? joints b = some other) :
    Relation.TransGen (blueprint.laidOut internals joints blueprint.declarationOrder).FeedsPart part
      other := by
  induction hpath generalizing other with
  | single hfeeds => exact .single (h.feedsPart_of_feeds hfeeds hpart hother)
  | tail _ hfeeds ih =>
    obtain ⟨middle, hmiddle⟩ := h.exists_part?_of_feeds hfeeds
    exact (ih hmiddle).tail (h.feedsPart_of_feeds hfeeds hmiddle hother)

end Jointed

/-- A blueprint with standard parts is refused for a loop only if its parts feed each other in a
circle, through inputs that are not clocked. A circle whose parts are built in or open is a loop of
built in gates. -/
theorem loop_of_combinationalCycle {blueprint : Blueprint} {owner through : String}
    (hparts : ∀ part ∈ blueprint.parts, Standard part.1)
    (hrefused : blueprint.build = .error (.combinationalCycle owner through)) :
    ∃ component, blueprint.unsorted = .ok component ∧
      (∃ part, Relation.TransGen component.FeedsPart part part) ∧
      ∀ part, Relation.TransGen (fun a b => component.FeedsPart a b ∧
        (a.component.isBuiltIn = true ∨ a.IsOpen)) part part → component.HasLoop := by
  obtain ⟨hcheck, wires, internals, joints, hwires, hinternals, hjoints, hcircle⟩ :=
    circle_of_build hrefused
  have hscanned := scanned (checkDeclarations_eq_ok.mp hcheck)
    (fun part hpart => (hparts part hpart).isOrderly) hwires hinternals
  obtain ⟨_, rfl, hjoined, -⟩ := (joinWires_eq_ok .nil).mp hjoints
  have hjointed : blueprint.Jointed wires internals _ :=
    ⟨hscanned, hjoined.imp fun _ _ hjoin => OpenWire.joined_of_join hjoin⟩
  have hjoinery := joinery_of_fitted (fun part hpart => (hparts part hpart).wellWired.fitted) hcheck
    hwires hinternals hjoints
  have hloop := mt hjointed.circle_eq_none_iff.mpr hcircle
  simp only [not_forall, not_not] at hloop
  obtain ⟨position, hloop⟩ := hloop
  obtain ⟨_, hfeeds, -⟩ := Relation.TransGen.head'_iff.mp hloop
  obtain ⟨part, hpart⟩ := hjointed.exists_part?_of_feeds hfeeds
  refine ⟨_, except_bind_eq_ok.mpr ⟨wires, hwires, except_bind_eq_ok.mpr ⟨internals, hinternals,
    except_bind_eq_ok.mpr ⟨_, hjoints, rfl⟩⟩⟩,
    ⟨part, hjointed.transGen_feedsPart hloop hpart hpart⟩, fun other hopen => ?_⟩
  refine Component.hasLoop_of_feedsPart hjoinery.wired (hopen.lift id fun a b hfeeds => ?_)
  exact ⟨hfeeds.1, hfeeds.2.elim Part.isOpen_of_isBuiltIn id⟩

/-- An inverter that reads what it drives. -/
def oscillator : Blueprint :=
  { toggler with parts := [(Primitive.not.component, [("in", "x"), ("out", "x")])] }

/-- For example, an oscillator is refused, and it is a loop. -/
theorem loop_of_combinationalCycle_oscillator :
    oscillator.build = .error (.combinationalCycle "Toggler" "Not#0") ∧
    ∃ component, oscillator.unsorted = .ok component ∧ component.HasLoop := by
  have hrefused : oscillator.build = .error (.combinationalCycle "Toggler" "Not#0") := rfl
  have hparts : ∀ part ∈ oscillator.parts, Standard part.1 := by
    intro part hpart
    rw [List.mem_singleton.mp hpart]
    exact .primitive .not
  obtain ⟨component, hunsorted, ⟨part, hloop⟩, hopen⟩ := loop_of_combinationalCycle hparts hrefused
  have hbuiltIn : ∀ other ∈ component.parts, other.component.isBuiltIn = true := by
    intro other hother
    cases hunsorted
    obtain ⟨-, ⟨_, hget⟩, -⟩ := Joinery.of_part? (mem_parts_declared.mp hother)
    have hcomponent := congrArg Prod.fst (List.mem_singleton.mp (List.mem_of_getElem? hget))
    simp only at hcomponent
    rw [hcomponent]
    rfl
  refine ⟨hrefused, component, hunsorted, hopen part (hloop.lift id fun a b hfeeds => ?_)⟩
  exact ⟨hfeeds, .inl (hbuiltIn a hfeeds.mem_parts)⟩

/-- A component that inverts one input and stores another one. -/
def mixed : Blueprint where
  name := "Mixed"
  inputs := [("a", 1), ("d", 1)]
  outputs := [("x", 1), ("q", 1)]
  clocked := []
  parts := [(Primitive.not.component, [("in", "a"), ("out", "x")]),
    (Primitive.dff.component, [("in", "d"), ("out", "q")])]
  chip := none

/-- A part of which the inverter reads what has been stored. -/
def feedback (mixed : Component) : Blueprint where
  name := "Feedback"
  inputs := [("d", 1)]
  outputs := [("x", 1)]
  clocked := []
  parts := [(mixed, [("a", "state"), ("d", "d"), ("x", "x"), ("q", "state")])]
  chip := none

end Blueprint

def Wire.between (partRole : PinRole) (partIndex : Nat) (role : PinRole) (index : Nat) : Wire :=
  ⟨partRole, partIndex, none, .pin role index, none⟩

namespace Component

def inverter : Part Component :=
  ⟨Primitive.not.component, 0, [.between .input 0 .input 0, .between .output 0 .output 0]⟩

def register : Part Component :=
  ⟨Primitive.dff.component, 1, [.between .input 0 .input 1, .between .output 0 .output 1]⟩

def mixed : Component :=
  .composite (Blueprint.mixed.interface true fun pin => pin.index == 1) [] [register, inverter]
    ⟨[⟨.root, [1, 2, 3, 4]⟩, ⟨.input 0, [3]⟩, ⟨.input 1, []⟩, ⟨.part 0, [5]⟩, ⟨.part 1, [6]⟩,
      ⟨.output 0, []⟩, ⟨.output 1, []⟩]⟩

def fedBack : Part Component :=
  ⟨mixed, 0, [.between .input 0 .internal 0, .between .input 1 .input 0,
    .between .output 0 .output 0, .between .output 1 .internal 0]⟩

/-- The bits that the output of the inverter gets to through wires. -/
structure AfterInverter (point : PinBit) : Prop where
  role : point.role = .output
  index : point.index = 0
  path : point.path ∈ [[0, 0], [0], []]

theorem isBuiltIn_of_mem_mixed {part : Part Component} (h : part ∈ mixed.parts) :
    part.component.isBuiltIn = true := by
  rcases List.mem_pair.mp h with rfl | rfl <;> rfl

theorem AfterInverter.carried_mixed {source target : PinBit} (h : AfterInverter (source.under 0))
    (hcarries : mixed.Carries source target) : AfterInverter (target.under 0) := by
  obtain ⟨hrole, hindex, hpath⟩ := h
  cases hcarries with
  | read hpart hwire hinput howner =>
    rcases List.mem_pair.mp hpart with rfl | rfl <;> rcases List.mem_pair.mp hwire with rfl | rfl
    · cases howner; cases hrole
    · cases hinput
    · cases howner; cases hrole
    · cases hinput
  | drive hpart hwire houtput howner =>
    rcases List.mem_pair.mp hpart with rfl | rfl <;> rcases List.mem_pair.mp hwire with rfl | rfl
    · cases houtput
    · exact absurd hpath (show [0, 1] ∉ [[0, 0], [0], []] by decide)
    · cases houtput
    · cases howner
      exact ⟨rfl, rfl, show [0] ∈ [[0, 0], [0], []] by decide⟩
  | inside hpart hinner =>
    exact absurd hinner (not_carries_of_isBuiltIn (isBuiltIn_of_mem_mixed hpart))

variable {component : Component}

theorem AfterInverter.carried (hparts : component.parts = [fedBack]) {source target : PinBit}
    (h : AfterInverter source) (hcarries : component.Carries source target) :
    AfterInverter target := by
  cases hcarries with
  | read hpart hwire hinput howner =>
    rw [hparts, List.mem_singleton] at hpart
    subst hpart
    simp only [fedBack, List.mem_cons, List.not_mem_nil, or_false] at hwire
    obtain ⟨hrole, -, -⟩ := h
    rcases hwire with rfl | rfl | rfl | rfl
    · cases howner; cases hrole
    · cases howner; cases hrole
    · cases hinput
    · cases hinput
  | drive hpart hwire houtput howner =>
    rw [hparts, List.mem_singleton] at hpart
    subst hpart
    simp only [fedBack, List.mem_cons, List.not_mem_nil, or_false] at hwire
    obtain ⟨-, hindex, -⟩ := h
    rcases hwire with rfl | rfl | rfl | rfl
    · cases houtput
    · cases houtput
    · cases howner
      exact ⟨rfl, rfl, show [] ∈ [[0, 0], [0], []] by decide⟩
    · exact absurd hindex (show 1 ≠ 0 by decide)
  | inside hpart hinner =>
    rw [hparts, List.mem_singleton] at hpart
    subst hpart
    exact h.carried_mixed hinner

/-- The built in gates are the register and the inverter. -/
theorem register_or_inverter (hparts : component.parts = [fedBack]) {path : List Nat}
    {gate : Component} (hgate : component.Holds path gate) (hbuiltIn : gate.isBuiltIn = true) :
    (path = [0, 1] ∧ gate = register.component) ∨ (path = [0, 0] ∧ gate = inverter.component) := by
  cases hgate with
  | self =>
    rw [parts_eq_nil_of_isBuiltIn hbuiltIn] at hparts
    cases hparts
  | part hpart hinner =>
    rw [hparts, List.mem_singleton] at hpart
    subst hpart
    cases hinner with
    | self => cases hbuiltIn
    | part hpart hinner =>
      obtain ⟨rfl, rfl⟩ := hinner.eq_of_isBuiltIn (isBuiltIn_of_mem_mixed hpart)
      rcases List.mem_pair.mp hpart with rfl | rfl
      · exact .inl ⟨rfl, rfl⟩
      · exact .inr ⟨rfl, rfl⟩

/-- The inverter is the only one with an input that is not clocked. -/
theorem path_of_takes (hparts : component.parts = [fedBack]) {path : List Nat} {entry : PinBit}
    (h : component.Takes path entry) : path = [0, 0] ∧ entry.role = .input := by
  obtain ⟨hgate, hbuiltIn, hclocked, _, hpin, -⟩ := h
  refine ⟨?_, rfl⟩
  rcases register_or_inverter hparts hgate hbuiltIn with ⟨-, rfl⟩ | ⟨rfl, -⟩
  · rename_i index _ _
    cases index with
    | zero => cases hclocked
    | succ => cases hpin
  · rfl

theorem afterInverter_of_gives (hparts : component.parts = [fedBack]) {exit : PinBit}
    (h : component.Gives [0, 0] exit) : AfterInverter exit := by
  obtain ⟨hgate, hbuiltIn, _, hpin, -⟩ := h
  rcases register_or_inverter hparts hgate hbuiltIn with ⟨hpath, -⟩ | ⟨-, rfl⟩
  · exact absurd hpath (by decide)
  · rename_i index _ _
    cases index with
    | zero => exact ⟨rfl, rfl, List.mem_cons_self⟩
    | succ => cases hpin

/-- What leaves the inverter does not come back to it. -/
theorem not_hasLoop_of_fedBack (hparts : component.parts = [fedBack]) : ¬ component.HasLoop := by
  rintro ⟨gate, hloop⟩
  obtain ⟨_, -, _, _, -, htakes, -⟩ := Relation.TransGen.tail'_iff.mp hloop
  obtain ⟨_, ⟨exit, entry, hgives, htakes', hcarries⟩, -⟩ := Relation.TransGen.head'_iff.mp hloop
  obtain ⟨rfl, -⟩ := path_of_takes hparts htakes
  obtain ⟨-, hinput⟩ := path_of_takes hparts htakes'
  have hafter : AfterInverter entry := by
    have hstart := afterInverter_of_gives hparts hgives
    clear htakes' hinput
    induction hcarries with
    | refl => exact hstart
    | tail _ hstep ih => exact ih.carried hparts hstep
  rw [hafter.role] at hinput
  cases hinput

end Component

/-- A part that is not open can be refused for a loop that is none: the register of the part breaks
the only feedback. -/
theorem Blueprint.feedback_without_loop :
    mixed.build = .ok Component.mixed ∧ Standard Component.mixed ∧
    (feedback Component.mixed).build = .error (.combinationalCycle "Feedback" "Mixed#0") ∧
    ∃ component, (feedback Component.mixed).unsorted = .ok component ∧ ¬ component.HasLoop := by
  have hbuild : mixed.build = .ok Component.mixed := rfl
  refine ⟨hbuild, .composite rfl rfl (fun part hpart => ?_) hbuild, rfl, _, rfl,
    Component.not_hasLoop_of_fedBack rfl⟩
  rcases List.mem_pair.mp hpart with rfl | rfl
  · exact .primitive .not
  · exact .primitive .dff

end ClockedLogic
