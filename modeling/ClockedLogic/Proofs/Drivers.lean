import ClockedLogic.Proofs.Feasibility
import ClockedLogic.Proofs.GateTree
import Mathlib.Data.List.Nodup

/-!
What gives the nodes their values. The drivers of a placed component are the statements that tie
bits of a node to other bits or to ones, and the built in gates with their outputs. All of them
drive nodes that were made for the component or belong to its outputs, and no two parts of a
fitted component drive the same node.
-/

namespace ClockedLogic

/-- What gives bits of a node their values. -/
inductive Driver where
  | statement (statement : Statement)
  | gate (gate : Gate)

namespace Driver

def Drives (node : Nat) : Driver → Prop
  | .statement (.link _ _ target _) => node = target
  | .statement (.raise target _) => node = target
  | .gate (.builtIn site _) => node ∈ site.outputs
  | _ => False

/-- Whether a driver gives a value to a bit of a node. Built in gates drive all bits. -/
def DrivesBit (width : Nat → Nat) (node bit : Nat) : Driver → Prop
  | .statement (.link _ _ target bits) => node = target ∧ (spanAt width target bits).Covers bit
  | .statement (.raise target bits) => node = target ∧ (spanAt width target bits).Covers bit
  | .gate (.builtIn site _) => node ∈ site.outputs
  | _ => False

theorem DrivesBit.drives {width : Nat → Nat} {node bit : Nat} {driver : Driver}
    (h : driver.DrivesBit width node bit) : driver.Drives node := by
  cases driver with
  | statement statement =>
    cases statement with
    | node => exact h
    | listen => exact h
    | link => exact h.1
    | raise => exact h.1
  | gate gate =>
    cases gate with
    | builtIn => exact h
    | composite => exact h

end Driver

def Placed.Has (placed : Placed Gate) : Driver → Prop
  | .statement statement => statement ∈ placed.statements
  | .gate gate => gate ∈ placed.result.all

/-- Whether a node was made for what has been placed since a cursor, or is one of its outputs. -/
def Placed.Reaches (placed : Placed Gate) (start : Cursor) (node : Nat) : Prop :=
  start.nodes ≤ node ∧ node < placed.cursor.nodes ∨ node ∈ placed.result.outputs

def PlacedPart.Has (placed : PlacedPart) : Driver → Prop
  | .statement statement => statement ∈ placed.statements
  | .gate gate => gate ∈ placed.gate.result.all

/-- Nodes for the pins of a component that exist already, different ones for the outputs. -/
structure Seat (inputs outputs : List Nat) (cursor : Cursor) : Prop where
  inputs_lt : ∀ node ∈ inputs, node < cursor.nodes
  outputs_lt : ∀ node ∈ outputs, node < cursor.nodes
  nodup : outputs.Nodup

inductive PartDrives (sharing : Bool) (scope : Scope) (placed : PlacedPart) : Driver → Nat → Prop
  where
  /-- A wire into an input with a node of its own. -/
  | input {position node : Nat} {pin : Pin} {wire : Wire} {statement : Statement}
    (hpin : placed.part.component.inputs[position]? = some pin)
    (hnode : placed.inputs.result[position]? = some node)
    (hnew : scope.share? sharing placed.part.wires pin = none)
    (hlow : placed.start.nodes ≤ node) (hhigh : node < placed.inputs.cursor.nodes)
    (hwire : wire ∈ placed.part.wires) (hrole : wire.partRole = .input)
    (hindex : wire.partIndex = position)
    (hstatement : scope.statement? node wire = some statement) :
    PartDrives sharing scope placed (.statement statement) node
  /-- A wire from an output with a node of its own. -/
  | output {source node : Nat} {pin : Pin} {wire : Wire}
    (hpin : placed.part.component.outputs[wire.partIndex]? = some pin)
    (hsource : placed.outputs.result[wire.partIndex]? = some source)
    (hnew : scope.share? sharing placed.part.wires pin = none)
    (hwire : wire ∈ placed.part.wires) (hrole : wire.partRole = .output)
    (hnode : scope.node? wire.owner = some node) :
    PartDrives sharing scope placed (.statement (.link source wire.partBits node wire.ownerBits))
      node
  /-- A driver inside the part. -/
  | inside {driver : Driver} {node : Nat} (hdriver : placed.gate.Has driver)
    (hdrives : driver.Drives node) (hreaches : placed.gate.Reaches placed.outputs.cursor node) :
    PartDrives sharing scope placed driver node

/-- The parts of an owner, whose pins have nodes below a bound. Different pins that parts can
drive have different nodes. -/
structure Owner (scope : Scope) (bound : Nat) (interface : Interface) (internals : List Pin)
    (parts : List (Part Component)) (pinsOf : PinRole → List Pin) : Prop where
  fitting : Fitting interface internals parts pinsOf
  order : ∀ role, PinsInOrder role (pinsOf role)
  fitted : ∀ part ∈ parts, Fitted part.component
  below : ∀ far node, scope.node? far = some node → node < bound
  injective : ∀ role role' index index' node, role ≠ .input → role' ≠ .input →
    scope.node? (.pin role index) = some node → scope.node? (.pin role' index') = some node →
    Endpoint.pin role index = .pin role' index'

theorem BitSpan.overlaps_of_covers {a b : BitSpan} {bit : Nat} (ha : a.Covers bit)
    (hb : b.Covers bit) : a.overlaps b = true := overlaps_iff.mpr ⟨bit, ha, hb⟩

theorem Pin.overlaps_whole {pin : Pin} (hlow : 1 ≤ pin.width) (hhigh : pin.width ≤ 16)
    {bits : Option BitSpan} (hbits : pin.Has bits) :
    (pin.spanOf none).overlaps (pin.spanOf bits) = true := by
  refine BitSpan.overlaps_iff.mpr ⟨(pin.spanOf bits).low, ?_, Nat.le_refl _,
    (pin.spanOf bits).low_le_high⟩
  cases bits with
  | none => exact ⟨Nat.le_refl _, (pin.spanOf none).low_le_high⟩
  | some span =>
    have hspan := hbits span rfl
    have hle := span.low_le_high
    refine ⟨Nat.zero_le _, ?_⟩
    simp only [spanOf, Option.getD_some, Option.getD_none, BitSpan.whole]
    omega

theorem Wire.Fits.drives {part : Component} {pinsOf : PinRole → List Pin} {wire : Wire}
    (h : wire.Fits part pinsOf) (houtput : wire.partRole = .output) :
    ∃ role index far, wire.owner = .pin role index ∧ role ≠ .input ∧
      (pinsOf role)[index]? = some far ∧ far.Has wire.ownerBits := by
  cases h with
  | tied => cases houtput
  | read => cases houtput
  | drive _ _ hrole hfar hbits _ => exact ⟨_, _, _, rfl, hrole, hfar, hbits⟩

/-- A wire into an input of a part joins bits that the part has. -/
theorem Wire.Fits.exists_input {part : Component} {pinsOf : PinRole → List Pin} {wire : Wire}
    (h : wire.Fits part pinsOf) (hinput : wire.partRole = .input) :
    ∃ pin, part.inputs[wire.partIndex]? = some pin ∧ pin.Has wire.partBits := by
  cases h with
  | tied hpin hbits => exact ⟨_, hpin, hbits⟩
  | read hpin hbits => exact ⟨_, hpin, hbits⟩
  | drive => cases hinput

/-- Parts have wires at inputs and outputs only. -/
theorem Wire.Fits.partRole_ne_internal {part : Component} {pinsOf : PinRole → List Pin}
    {wire : Wire} (h : wire.Fits part pinsOf) : wire.partRole ≠ .internal := by
  cases h <;> simp

namespace Owner

open Component

variable {sharing : Bool} {scope : Scope} {cursor : Cursor} {interface : Interface}
  {internals : List Pin} {parts : List (Part Component)} {pinsOf : PinRole → List Pin}

/-- A wire that drives the whole of a pin is the only one that drives its node. -/
theorem eq_of_isWhole (h : Owner scope cursor.nodes interface internals parts pinsOf)
    {a b : PlacedPart} (ha : a ∈ placeEach sharing scope parts cursor)
    (hb : b ∈ placeEach sharing scope parts cursor) {wire other : Wire}
    (hwire : wire ∈ a.part.wires) (hother : other ∈ b.part.wires) (hrole : wire.partRole = .output)
    (hrole' : other.partRole = .output) (hwhole : wire.isWhole = true) {node : Nat}
    (hnode : scope.node? wire.owner = some node) (hnode' : scope.node? other.owner = some node) :
    a = b ∧ wire = other := by
  obtain ⟨hmem, -⟩ := mem_placeEach ha
  obtain ⟨hmem', -⟩ := mem_placeEach hb
  obtain ⟨role, index, far, howner, hdriven, hfar, -⟩ :=
    (h.fitting.fits _ hmem _ hwire).drives hrole
  obtain ⟨role', index', far', howner', hdriven', hfar', hbits⟩ :=
    (h.fitting.fits _ hmem' _ hother).drives hrole'
  rw [howner] at hnode
  rw [howner'] at hnode'
  have hsame := h.injective role role' index index' node hdriven hdriven' hnode hnode'
  obtain ⟨rfl, rfl⟩ := Endpoint.pin.inj hsame
  obtain rfl : far = far' := Option.some.inj (hfar.symm.trans hfar')
  obtain ⟨-, -, hlow, hhigh⟩ := h.order role _ _ hfar
  have hoverlaps := far.overlaps_whole hlow hhigh hbits
  simp only [Wire.isWhole, Bool.and_eq_true, Option.isNone_iff_eq_none] at hwhole
  rw [← hwhole.2] at hoverlaps
  by_contra hne
  have hdiffer : ¬ (a.part.position = b.part.position ∧ wire = other) := by
    intro hboth
    obtain ⟨hposition, heq⟩ := hboth
    rcases placeEach_apart h.fitting.positions ha hb with rfl | ⟨hposition', -⟩
    · exact hne ⟨rfl, heq⟩
    · exact hposition' hposition
  have hapart := h.fitting.outputs_apart _ hmem _ hmem' _ hwire _ hother hdiffer hrole hrole' role
    index howner howner' far hfar
  rw [hapart] at hoverlaps
  cases hoverlaps

/-- An output of a part has a node of its own or shares the node of a pin that the part drives. -/
theorem output_cases (h : Owner scope cursor.nodes interface internals parts pinsOf)
    {placed : PlacedPart} (hplaced : placed ∈ placeEach sharing scope parts cursor)
    {position node : Nat} (hnode : placed.outputs.result[position]? = some node) :
    ∃ pin, placed.part.component.outputs[position]? = some pin ∧
      ((scope.share? sharing placed.part.wires pin = none ∧
        placed.inputs.cursor.nodes ≤ node ∧ node < placed.outputs.cursor.nodes) ∨
      ∃ wire ∈ placed.part.wires, wire.partRole = .output ∧ wire.partIndex = position ∧
        wire.isWhole = true ∧ scope.node? wire.owner = some node ∧
        scope.share? sharing placed.part.wires pin ≠ none) := by
  obtain ⟨hmem, hpart, -⟩ := mem_placeEach hplaced
  have hbound : position < placed.part.component.outputs.length := by
    rw [← hpart.outputs.length]
    exact (List.getElem?_eq_some_iff.mp hnode).1
  refine ⟨_, List.getElem?_eq_getElem hbound, ?_⟩
  obtain ⟨hrole, hindex, -⟩ := (h.fitted _ hmem).pinsInOrder .output _ _
    (List.getElem?_eq_getElem hbound)
  rcases hpart.outputs.found _ _ _ (List.getElem?_eq_getElem hbound) hnode with hshared | hnew
  · obtain ⟨wire, hwire, hwireRole, hwireIndex, hwhole, hfar, -⟩ := Scope.share?_eq_some hshared
    rw [hrole] at hwireRole
    rw [hindex] at hwireIndex
    exact .inr ⟨wire, hwire, hwireRole, hwireIndex, hwhole, hfar, by rw [hshared]; simp⟩
  · exact .inl hnew

/-- The pins of every part have their nodes before the part is placed. -/
theorem seat (h : Owner scope cursor.nodes interface internals parts pinsOf)
    {placed : PlacedPart} (hplaced : placed ∈ placeEach sharing scope parts cursor) :
    Seat placed.inputs.result placed.outputs.result placed.outputs.cursor := by
  obtain ⟨hmem, hpart, hstart, -⟩ := mem_placeEach hplaced
  obtain ⟨hle, hle', -⟩ := hpart.le
  refine ⟨fun node hnode => ?_, fun node hnode => ?_, List.nodup_iff_getElem?_ne_getElem?.mpr ?_⟩
  · obtain ⟨position, hposition⟩ := List.mem_iff_getElem?.mp hnode
    have hbound : position < placed.part.component.inputs.length := by
      rw [← hpart.inputs.length]
      exact (List.getElem?_eq_some_iff.mp hposition).1
    rcases hpart.inputs.found _ _ _ (List.getElem?_eq_getElem hbound) hposition with hshared | hnew
    · obtain ⟨wire, -, -, -, -, hfar, -⟩ := Scope.share?_eq_some hshared
      have hlt := h.below _ _ hfar
      omega
    · omega
  · obtain ⟨position, hposition⟩ := List.mem_iff_getElem?.mp hnode
    obtain ⟨pin, -, hnew | ⟨wire, -, -, -, -, hfar, -⟩⟩ := h.output_cases hplaced hposition
    · omega
    · have hlt := h.below _ _ hfar
      omega
  · intro first second hlt hsecond heq
    obtain ⟨node, hnode'⟩ : ∃ node, placed.outputs.result[second]? = some node :=
      ⟨_, List.getElem?_eq_getElem hsecond⟩
    have hnode := heq.trans hnode'
    obtain ⟨pin, hpin, hcase⟩ := h.output_cases hplaced hnode
    obtain ⟨pin', hpin', hcase'⟩ := h.output_cases hplaced hnode'
    rcases hcase with ⟨hown, hlow, -⟩ | ⟨wire, hwire, hrole, hindex, hwhole, hfar, -⟩ <;>
      rcases hcase' with ⟨hown', hlow', -⟩ | ⟨wire', hwire', hrole', hindex', -, hfar', -⟩
    · have hsame := hpart.outputs.apart _ _ _ _ _ hpin hpin' hown hown' hnode hnode'
      omega
    · have hbelow := h.below _ _ hfar'
      omega
    · have hbelow := h.below _ _ hfar
      omega
    · obtain ⟨-, rfl⟩ := h.eq_of_isWhole hplaced hplaced hwire hwire' hrole hrole' hwhole hfar hfar'
      omega

/-- The nodes of a placed part are made for it, or belong to pins of the owner that it drives as a
whole. -/
theorem reaches_cases (h : Owner scope cursor.nodes interface internals parts pinsOf)
    {placed : PlacedPart} (hplaced : placed ∈ placeEach sharing scope parts cursor) {node : Nat}
    (hreaches : placed.gate.Reaches placed.outputs.cursor node) :
    (placed.inputs.cursor.nodes ≤ node ∧ node < placed.gate.cursor.nodes) ∨
      ∃ wire ∈ placed.part.wires, wire.partRole = .output ∧ wire.isWhole = true ∧
        scope.node? wire.owner = some node ∧
        ∀ pin, placed.part.component.outputs[wire.partIndex]? = some pin →
          scope.share? sharing placed.part.wires pin ≠ none := by
  obtain ⟨hmem, hpart, -⟩ := mem_placeEach hplaced
  obtain ⟨-, hle, hle'⟩ := hpart.le
  rcases hreaches with ⟨hlow, hhigh⟩ | hnode
  · exact .inl ⟨Nat.le_trans hle hlow, hhigh⟩
  · rw [hpart.isPlaced.outputs_eq] at hnode
    obtain ⟨position, hposition⟩ := List.mem_iff_getElem?.mp hnode
    obtain ⟨pin, hpin, ⟨-, hlow, hhigh⟩ | ⟨wire, hwire, hrole, rfl, hwhole, hfar, hshared⟩⟩ :=
      h.output_cases hplaced hposition
    · exact .inl ⟨hlow, Nat.lt_of_lt_of_le hhigh hle'⟩
    · refine .inr ⟨wire, hwire, hrole, hwhole, hfar, fun other hother => ?_⟩
      rwa [← Option.some.inj (hpin.symm.trans hother)]

theorem gate_has (h : Owner scope cursor.nodes interface internals parts pinsOf)
    {a b : PlacedPart} (ha : a ∈ placeEach sharing scope parts cursor)
    (hb : b ∈ placeEach sharing scope parts cursor) {driver : Driver} {node : Nat}
    (hdrives : PartDrives sharing scope a driver node)
    (hreaches : b.gate.Reaches b.outputs.cursor node) : b.gate.Has driver := by
  obtain ⟨-, hpart, hstart, -⟩ := mem_placeEach ha
  obtain ⟨-, hpart', hstart', -⟩ := mem_placeEach hb
  have hle := hpart.le
  have hle' := hpart'.le
  have happart := placeEach_apart h.fitting.positions ha hb
  have hb' := h.reaches_cases hb hreaches
  cases hdrives with
  | input _ _ _ hlow hhigh =>
    rcases hb' with hrange | ⟨wire, -, -, -, hfar, -⟩
    · rcases happart with rfl | ⟨-, hcase⟩ <;> omega
    · have hbelow := h.below _ _ hfar
      omega
  | output hpin _ hnew hwire hrole hnode =>
    have hbelow := h.below _ _ hnode
    rcases hb' with hrange | ⟨wire, hwire', hrole', hwhole, hfar, hshared⟩
    · omega
    · obtain ⟨rfl, rfl⟩ := h.eq_of_isWhole hb ha hwire' hwire hrole' hrole hwhole hfar hnode
      exact absurd hnew (hshared _ hpin)
  | inside hdriver _ hreaches' =>
    rcases happart with rfl | ⟨hposition, hcase⟩
    · exact hdriver
    · rcases h.reaches_cases ha hreaches' with hrange | ⟨wire, hwire, hrole, hwhole, hfar, -⟩ <;>
        rcases hb' with hrange' | ⟨wire', hwire', hrole', -, hfar', -⟩
      · omega
      · have hbelow := h.below _ _ hfar'
        omega
      · have hbelow := h.below _ _ hfar
        omega
      · obtain ⟨rfl, -⟩ := h.eq_of_isWhole ha hb hwire hwire' hrole hrole' hwhole hfar hfar'
        exact absurd rfl hposition

/-- What a driver of a part does, if whatever is inside the part keeps to its own nodes. -/
theorem partDrives (h : Owner scope cursor.nodes interface internals parts pinsOf)
    {placed : PlacedPart} (hplaced : placed ∈ placeEach sharing scope parts cursor)
    {driver : Driver} {node : Nat} (hdriver : placed.Has driver) (hdrives : driver.Drives node)
    (hinside : placed.gate.Has driver → placed.gate.Reaches placed.outputs.cursor node) :
    PartDrives sharing scope placed driver node := by
  obtain ⟨hmem, hpart, -⟩ := mem_placeEach hplaced
  cases driver with
  | gate gate => exact .inside hdriver hdrives (hinside hdriver)
  | statement statement =>
    rcases List.mem_append.mp hdriver with hpins | hgate
    · rcases List.mem_append.mp hpins with hin | hout
      · rcases hpart.inputs.statements statement hin with ⟨_, rfl⟩ |
          ⟨position, pin, own, wire, hpin, hown, hnew, hwire, hrole, hindex, hstatement⟩
        · exact hdrives.elim
        · obtain ⟨hpinRole, hpinIndex, -⟩ := (h.fitted _ hmem).pinsInOrder .input _ _ hpin
          rw [hpinRole] at hrole
          rw [hpinIndex] at hindex
          have hsame : node = own := by
            rcases Scope.statement?_eq_some hstatement with
              ⟨-, _, -, rfl⟩ | ⟨hne, -⟩ | ⟨-, -, rfl⟩
            · exact hdrives
            · exact absurd hrole hne
            · exact hdrives
          rcases hpart.inputs.found _ _ _ hpin hown with hshared | ⟨-, hlow, hhigh⟩
          · rw [hnew] at hshared
            cases hshared
          · rw [hsame]
            exact .input hpin hown hnew hlow hhigh hwire hrole hindex hstatement
      · rcases hpart.outputs.statements statement hout with ⟨_, rfl⟩ |
          ⟨position, pin, own, wire, hpin, hown, hnew, hwire, hrole, hindex, hstatement⟩
        · exact hdrives.elim
        · obtain ⟨hpinRole, hpinIndex, -⟩ := (h.fitted _ hmem).pinsInOrder .output _ _ hpin
          rw [hpinRole] at hrole
          rw [hpinIndex] at hindex
          subst hindex
          rcases Scope.statement?_eq_some hstatement with
            ⟨hin, -⟩ | ⟨-, other, hother, rfl⟩ | ⟨hin, -⟩
          · rw [hrole] at hin
            cases hin
          · rw [show node = other from hdrives]
            exact .output hpin hown hnew hwire hrole hother
          · rw [hrole] at hin
            cases hin
    · exact .inside hgate hdrives (hinside hgate)

end Owner

namespace Component

variable {sharing : Bool}

def innerScope (internals : List Pin) (inputs outputs : List Nat) (cursor : Cursor) : Scope :=
  ⟨inputs, outputs, (List.range internals.length).map (cursor.nodes + ·)⟩

def innerCursor (internals : List Pin) (cursor : Cursor) : Cursor :=
  { cursor with nodes := cursor.nodes + internals.length }

def innerParts (sharing : Bool) (internals : List Pin) (parts : List (Part Component))
    (inputs outputs : List Nat) (cursor : Cursor) : List PlacedPart :=
  placeEach sharing (innerScope internals inputs outputs cursor) parts
    (innerCursor internals cursor)

variable {interface : Interface} {internals : List Pin} {parts : List (Part Component)}
  {dependencies : Digraph Vertex} {inputs outputs : List Nat} {cursor : Cursor}

theorem mem_internal {node : Nat} :
    node ∈ (innerScope internals inputs outputs cursor).nodesOf .internal ↔
      cursor.nodes ≤ node ∧ node < (innerCursor internals cursor).nodes := by
  simp only [Scope.nodesOf, innerScope, innerCursor, List.mem_map, List.mem_range]
  constructor
  · intro hexists
    obtain ⟨position, hlt, rfl⟩ := hexists
    omega
  · intro hboth
    obtain ⟨hlow, hhigh⟩ := hboth
    exact ⟨node - cursor.nodes, by omega, by omega⟩

/-- The nodes that the parts see are those of the pins of the placed component. -/
theorem nodesOf_place_composite (role : PinRole) :
    (place sharing (composite interface internals parts dependencies) inputs outputs
      cursor).result.nodesOf role = (innerScope internals inputs outputs cursor).nodesOf role := by
  unfold place
  cases role <;> rfl

theorem parts_place_composite :
    (place sharing (composite interface internals parts dependencies) inputs outputs
      cursor).result.parts =
    (innerParts sharing internals parts inputs outputs cursor).map (·.gate.result) := by
  unfold place
  exact result_placeParts sharing (innerScope internals inputs outputs cursor) parts
    (innerCursor internals cursor)

theorem mem_all_place_composite {gate : Gate} :
    gate ∈ (place sharing (composite interface internals parts dependencies) inputs outputs
        cursor).result.all ↔
      gate = (place sharing (composite interface internals parts dependencies) inputs outputs
        cursor).result ∨
      ∃ placed ∈ innerParts sharing internals parts inputs outputs cursor,
        gate ∈ placed.gate.result.all := by
  rw [Gate.mem_all_iff, parts_place_composite]
  simp only [List.mem_map, exists_exists_and_eq_and]

theorem part_innerParts :
    (innerParts sharing internals parts inputs outputs cursor).map (·.part) = parts :=
  part_placeEach _ _ _ _

theorem exists_placed {position : Nat} {part : Part Component}
    (hpart : parts[position]? = some part) :
    ∃ placed ∈ innerParts sharing internals parts inputs outputs cursor, placed.part = part ∧
      (place sharing (.composite interface internals parts dependencies) inputs outputs
        cursor).result.parts[position]? = some placed.gate.result := by
  have hsame := congrArg (·[position]?)
    (@part_innerParts sharing internals parts inputs outputs cursor)
  simp only [List.getElem?_map, hpart, Option.map_eq_some_iff] at hsame
  obtain ⟨placed, hplaced, hsame⟩ := hsame
  refine ⟨placed, List.mem_of_getElem? hplaced, hsame, ?_⟩
  rw [parts_place_composite, List.getElem?_map, hplaced, Option.map_some]

theorem owner (hparts : ∀ part ∈ parts, Fitted part.component)
    (hfitting : Fitting interface internals parts
      (composite interface internals parts dependencies).pinsOf)
    (hseat : Seat inputs outputs cursor) :
    Owner (innerScope internals inputs outputs cursor)
      (innerCursor internals cursor).nodes interface
      internals parts (composite interface internals parts dependencies).pinsOf where
  fitting := hfitting
  order := (Fitted.composite hparts hfitting).pinsInOrder
  fitted := hparts
  below far node hfar := by
    cases far with
    | pin role index =>
      rw [Scope.node?_pin] at hfar
      have hmem := List.mem_of_getElem? hfar
      cases role with
      | input => exact Nat.lt_add_right _ (hseat.inputs_lt node hmem)
      | output => exact Nat.lt_add_right _ (hseat.outputs_lt node hmem)
      | internal => exact (mem_internal.mp hmem).2
    | ones => cases hfar
    | zeros => cases hfar
  injective role role' index index' node hrole hrole' hnode hnode' := by
    rw [Scope.node?_pin] at hnode hnode'
    have houtput : ∀ position, outputs[position]? = some node → node < cursor.nodes :=
      fun position hposition => hseat.outputs_lt node (List.mem_of_getElem? hposition)
    have hinternal : ∀ position : Nat,
        ((List.range internals.length).map (cursor.nodes + ·))[position]? = some node →
        node = cursor.nodes + position := by
      intro position hposition
      simp only [List.getElem?_map, Option.map_eq_some_iff, List.getElem?_eq_some_iff,
        List.getElem_range] at hposition
      omega
    cases role with
    | input => exact absurd rfl hrole
    | output =>
      cases role' with
      | input => exact absurd rfl hrole'
      | output =>
        have hbound := (List.getElem?_eq_some_iff.mp hnode).1
        rw [(List.getElem?_inj hbound hseat.nodup).mp (hnode.trans hnode'.symm)]
      | internal =>
        have hlt := houtput _ hnode
        have heq := hinternal _ hnode'
        omega
    | internal =>
      cases role' with
      | input => exact absurd rfl hrole'
      | output =>
        have hlt := houtput _ hnode'
        have heq := hinternal _ hnode
        omega
      | internal =>
        have heq := hinternal _ hnode
        have heq' := hinternal _ hnode'
        rw [show index = index' by omega]

theorem has_composite {driver : Driver} {node : Nat} (hdrives : driver.Drives node) :
    (place sharing (composite interface internals parts dependencies) inputs outputs cursor).Has
        driver ↔
      ∃ placed ∈ innerParts sharing internals parts inputs outputs cursor, placed.Has driver := by
  cases driver with
  | statement statement =>
    unfold place
    have hother : statement ∉ internals.map (Statement.node ·.width) ∧
        ∀ index, statement ∉ inputs.map (Statement.listen · index) := by
      refine ⟨fun hmem => ?_, fun index hmem => ?_⟩ <;> obtain ⟨_, -, rfl⟩ := List.mem_map.mp hmem
      · exact hdrives
      · exact hdrives
    simp only [Placed.Has, List.mem_append, hother.1, hother.2, false_or, or_false]
    exact statements_placeParts sharing (innerScope internals inputs outputs cursor) parts
      (innerCursor internals cursor) ▸ List.mem_flatMap
  | gate gate =>
    refine mem_all_place_composite.trans (or_iff_right ?_)
    rintro rfl
    unfold place at hdrives
    exact hdrives

theorem nodes_place_composite :
    (place sharing (composite interface internals parts dependencies) inputs outputs
      cursor).cursor.nodes =
    (placeParts sharing (innerScope internals inputs outputs cursor) parts
      (innerCursor internals cursor)).cursor.nodes := by
  unfold place
  rfl

theorem has_builtIn {chip : ChipSpec} {driver : Driver} {node : Nat}
    (hdriver : (place sharing (.builtIn interface chip) inputs outputs cursor).Has driver)
    (hdrives : driver.Drives node) :
    driver = .gate (place sharing (.builtIn interface chip) inputs outputs cursor).result ∧
      node ∈ outputs := by
  rw [place] at hdriver ⊢
  cases driver with
  | statement statement =>
    obtain ⟨_, -, rfl⟩ := List.mem_map.mp hdriver
    exact hdrives.elim
  | gate gate =>
    rw [Placed.Has, Gate.all, List.mem_singleton] at hdriver
    subst hdriver
    exact ⟨rfl, hdrives⟩

/-- The nodes of outputs and internal pins are nodes of the owner. -/
theorem reaches_of_pin {role : PinRole} (hrole : role ≠ .input) {index node : Nat}
    (hnode : (innerScope internals inputs outputs cursor).node? (.pin role index) = some node) :
    (place sharing (composite interface internals parts dependencies) inputs outputs
      cursor).Reaches cursor node := by
  rw [Scope.node?_pin] at hnode
  have hmem := List.mem_of_getElem? hnode
  have hnodes := (@arePlaced sharing (innerScope internals inputs outputs cursor) parts
    (fun _ _ => isPlaced sharing _) (innerCursor internals cursor)).nodes
  rw [Placed.Reaches, (isPlaced _ _ _ _ _).outputs_eq, nodes_place_composite, hnodes]
  cases role with
  | input => exact absurd rfl hrole
  | output => exact .inr hmem
  | internal =>
    obtain ⟨hlow, hhigh⟩ := mem_internal.mp hmem
    exact .inl ⟨hlow, Nat.lt_add_right _ hhigh⟩

/-- A pin of the owner that a part drives is an output or internal. -/
theorem reaches_of_driven (hfitting : Fitting interface internals parts
      (composite interface internals parts dependencies).pinsOf) {placed : PlacedPart}
    (hplaced : placed ∈ innerParts sharing internals parts inputs outputs cursor) {wire : Wire}
    (hwire : wire ∈ placed.part.wires) (hrole : wire.partRole = .output) {node : Nat}
    (hnode : (innerScope internals inputs outputs cursor).node? wire.owner = some node) :
    (place sharing (composite interface internals parts dependencies) inputs outputs
      cursor).Reaches cursor node := by
  obtain ⟨hmem, -⟩ := mem_placeEach hplaced
  obtain ⟨role, index, _, hfarOwner, hnotInput, -, -⟩ :=
    (hfitting.fits _ hmem _ hwire).drives hrole
  rw [hfarOwner] at hnode
  exact reaches_of_pin hnotInput hnode

theorem reaches_of_part (hparts : ∀ part ∈ parts, Fitted part.component)
    (hfitting : Fitting interface internals parts
      (composite interface internals parts dependencies).pinsOf)
    (hseat : Seat inputs outputs cursor) {placed : PlacedPart}
    (hplaced : placed ∈ innerParts sharing internals parts inputs outputs cursor) {node : Nat}
    (hreaches : placed.gate.Reaches placed.outputs.cursor node) :
    (place sharing (composite interface internals parts dependencies) inputs outputs
      cursor).Reaches cursor node := by
  obtain ⟨-, hpart, hstart, hend⟩ := mem_placeEach hplaced
  have hle := hpart.le
  have hinner : cursor.nodes ≤ (innerCursor internals cursor).nodes := Nat.le_add_right _ _
  rcases (owner hparts hfitting hseat).reaches_cases hplaced hreaches with
    hrange | ⟨wire, hwire, hrole, -, hfar, -⟩
  · rw [Placed.Reaches, nodes_place_composite]
    omega
  · exact reaches_of_driven hfitting hplaced hwire hrole hfar

/-- A placed component drives its own nodes and outputs only. -/
theorem reaches {component : Component} (h : Fitted component) {inputs outputs : List Nat}
    {cursor : Cursor} (hseat : Seat inputs outputs cursor) {driver : Driver} {node : Nat}
    (hdriver : (place sharing component inputs outputs cursor).Has driver)
    (hdrives : driver.Drives node) :
    (place sharing component inputs outputs cursor).Reaches cursor node := by
  induction h generalizing inputs outputs cursor driver node with
  | builtIn =>
    refine .inr ?_
    rw [(isPlaced _ _ _ _ _).outputs_eq]
    exact (has_builtIn hdriver hdrives).2
  | @composite interface internals parts dependencies hparts hfitting ih =>
    have howner := owner hparts hfitting hseat
    obtain ⟨placed, hplaced, hhas⟩ := (has_composite hdrives).mp hdriver
    obtain ⟨hmem, hpart, hstart, hend⟩ := mem_placeEach hplaced
    have hle := hpart.le
    have hinside : placed.gate.Has driver → placed.gate.Reaches placed.outputs.cursor node := by
      intro hgate
      rw [hpart.gate_eq] at hgate ⊢
      exact ih _ hmem (howner.seat hplaced) hgate hdrives
    cases howner.partDrives hplaced hhas hdrives hinside with
    | input _ _ _ hlow hhigh =>
      rw [Placed.Reaches, nodes_place_composite]
      have hinner : cursor.nodes ≤ (innerCursor internals cursor).nodes := Nat.le_add_right _ _
      omega
    | output _ _ _ hwire hrole hnode => exact reaches_of_driven hfitting hplaced hwire hrole hnode
    | inside _ _ hreaches => exact reaches_of_part hparts hfitting hseat hplaced hreaches

theorem partDrives (hparts : ∀ part ∈ parts, Fitted part.component)
    (hfitting : Fitting interface internals parts
      (composite interface internals parts dependencies).pinsOf)
    (hseat : Seat inputs outputs cursor) {placed : PlacedPart}
    (hplaced : placed ∈ innerParts sharing internals parts inputs outputs cursor)
    {driver : Driver} {node : Nat} (hdriver : placed.Has driver) (hdrives : driver.Drives node) :
    PartDrives sharing (innerScope internals inputs outputs cursor) placed driver node := by
  obtain ⟨hmem, hpart, -⟩ := mem_placeEach hplaced
  have howner := owner hparts hfitting hseat
  apply howner.partDrives hplaced hdriver hdrives
  intro hgate
  rw [hpart.gate_eq] at hgate ⊢
  exact reaches (hparts _ hmem) (howner.seat hplaced) hgate hdrives

end Component

end ClockedLogic
