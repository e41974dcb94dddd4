import ClockedLogic.Proofs.Layout

/-!
Both ends of a wire. Every composite gate of a circuit stands where its component was placed, so
each of its wires is a node that both ends share, a link between their nodes, or a constant. If
the values of the nodes follow the links and the constants, and bits without a driver are clear,
then both ends of every wire carry the same bits.
-/

namespace ClockedLogic

open Component Scope

/-- Values of nodes that follow links and constants, with nothing where there is no driver. -/
structure Carried (drivers : Driver → Prop) (entries : Nat → Prop) (width : Nat → Nat)
    (value : Nat → Word) : Prop where
  link : ∀ source bits target targetBits,
    drivers (.statement (.link source bits target targetBits)) →
    ∀ position < (spanAt width target targetBits).width,
      (value target).getLsbD ((spanAt width target targetBits).low + position) =
        (value source).getLsbD ((spanAt width source bits).low + position)
  raise : ∀ node bits, drivers (.statement (.raise node bits)) →
    ∀ bit, (spanAt width node bits).Covers bit → (value node).getLsbD bit = true
  rest : ∀ node bit, ¬ entries node →
    (∀ driver, drivers driver → ¬ driver.DrivesBit width node bit) →
    (value node).getLsbD bit = false

inductive Wire.Agrees (value : Nat → Word) (owner part : Gate) (wire : Wire) : Prop where
  | joined {pin far : Pin} {node other : Nat} {role : PinRole} {index : Nat}
    (hpin : (part.component.pinsOf wire.partRole)[wire.partIndex]? = some pin)
    (hnode : (part.nodesOf wire.partRole)[wire.partIndex]? = some node)
    (howner : wire.owner = .pin role index)
    (hfar : (owner.component.pinsOf role)[index]? = some far)
    (hother : (owner.nodesOf role)[index]? = some other)
    (hwidth : (pin.spanOf wire.partBits).width = (far.spanOf wire.ownerBits).width)
    (hbits : ∀ position < (pin.spanOf wire.partBits).width,
      (value node).getLsbD ((pin.spanOf wire.partBits).low + position) =
        (value other).getLsbD ((far.spanOf wire.ownerBits).low + position))
  | tied {pin : Pin} {node : Nat} {constant : Bool}
    (hpin : (part.component.pinsOf wire.partRole)[wire.partIndex]? = some pin)
    (hnode : (part.nodesOf wire.partRole)[wire.partIndex]? = some node)
    (howner : wire.owner = if constant then .ones else .zeros)
    (hbits : ∀ bit, (pin.spanOf wire.partBits).Covers bit →
      (value node).getLsbD bit = constant)

/-- A component at its place inside another that has been placed. -/
structure Spot (drivers : Driver → Prop) (entries : Nat → Prop) (sharing : Bool)
    (component : Component) (inputs outputs : List Nat) (cursor : Cursor) : Prop where
  fitted : Fitted component
  seat : Seat inputs outputs cursor
  owned : Owned drivers entries (place sharing component inputs outputs cursor) cursor
  has : ∀ driver node, (place sharing component inputs outputs cursor).Has driver →
    driver.Drives node → drivers driver

namespace Spot

variable {drivers : Driver → Prop} {entries : Nat → Prop} {sharing : Bool} {component : Component}
  {interface : Interface} {internals : List Pin} {parts : List (Part Component)}
  {dependencies : Digraph Vertex} {inputs outputs : List Nat} {cursor : Cursor}
  {width : Nat → Nat} {value : Nat → Word} {bound : Nat}

theorem fitted_parts (h : Spot drivers entries sharing
    (.composite interface internals parts dependencies) inputs outputs cursor) :
    ∀ part ∈ parts, Fitted part.component := by
  cases h.fitted with
  | composite hparts _ => exact hparts

theorem fitting (h : Spot drivers entries sharing
    (.composite interface internals parts dependencies) inputs outputs cursor) :
    Fitting interface internals parts
      (Component.composite interface internals parts dependencies).pinsOf := by
  cases h.fitted with
  | composite _ hfitting => exact hfitting

/-- A part of a component at its place is at its place as well. -/
theorem part (h : Spot drivers entries sharing
      (.composite interface internals parts dependencies) inputs outputs cursor)
    {placed : PlacedPart}
    (hplaced : placed ∈ innerParts sharing internals parts inputs outputs cursor) :
    Spot drivers entries sharing placed.part.component placed.inputs.result
      placed.outputs.result placed.outputs.cursor := by
  obtain ⟨hmem, hpart, -⟩ := mem_placeEach hplaced
  have howned := owned_part h.fitted_parts h.fitting h.seat h.owned hplaced
  refine ⟨h.fitted_parts _ hmem, (owner h.fitted_parts h.fitting h.seat).seat hplaced, ?_, ?_⟩
  · rwa [← hpart.gate_eq]
  · intro driver node hdriver hdrives
    rw [← hpart.gate_eq] at hdriver
    refine h.has driver node ((has_composite hdrives).mpr ⟨placed, hplaced, ?_⟩) hdrives
    cases driver with
    | statement statement => exact List.mem_append_right _ hdriver
    | gate gate => exact hdriver

/-- Every gate inside a placed component comes from a component at its place. -/
theorem exists_of_mem (h : Spot drivers entries sharing component inputs outputs cursor)
    {gate : Gate} (hgate : gate ∈ (place sharing component inputs outputs cursor).result.all) :
    ∃ inner inputs outputs cursor, Spot drivers entries sharing inner inputs outputs cursor ∧
      gate = (place sharing inner inputs outputs cursor).result := by
  induction component using Component.inductionOn generalizing inputs outputs cursor with
  | builtIn interface chip =>
    refine ⟨_, _, _, _, h, ?_⟩
    rw [place, Gate.all, List.mem_singleton] at hgate
    rw [place, hgate]
  | composite interface internals parts dependencies ih =>
    rcases mem_all_place_composite.mp hgate with rfl | ⟨placed, hplaced, hinner⟩
    · exact ⟨_, _, _, _, h, rfl⟩
    · obtain ⟨hmem, hmade, -⟩ := mem_placeEach hplaced
      rw [hmade.gate_eq] at hinner
      exact ih placed.part hmem (h.part hplaced) hinner

section Composite

variable (h : Spot drivers entries sharing
    (.composite interface internals parts dependencies) inputs outputs cursor)
  (hhoused : ∀ gate ∈ (place sharing (.composite interface internals parts dependencies) inputs
    outputs cursor).result.all, Housed width bound gate)
  (hcarried : Carried drivers entries width value)

include h hhoused in
/-- A pin of a part has a node of its width, which is shared with the owner or has statements for
all of its wires. -/
theorem exists_node {placed : PlacedPart}
    (hplaced : placed ∈ innerParts sharing internals parts inputs outputs cursor) {role : PinRole}
    (hrole : role ≠ .internal) {position : Nat} {pin : Pin}
    (hpin : (placed.part.component.pinsOf role)[position]? = some pin) :
    pin.role = role ∧ pin.index = position ∧ 1 ≤ pin.width ∧ pin.width ≤ 16 ∧
    ∃ node, (placed.gate.result.nodesOf role)[position]? = some node ∧ width node = pin.width ∧
      ((innerScope internals inputs outputs cursor).share? sharing placed.part.wires pin =
          some node ∨
        (innerScope internals inputs outputs cursor).share? sharing placed.part.wires pin = none ∧
          ∀ wire ∈ placed.part.wires, wire.partRole = role → wire.partIndex = position →
            ∀ statement, (innerScope internals inputs outputs cursor).statement? node wire =
              some statement → placed.Has (.statement statement)) := by
  obtain ⟨hmem, hmade, -⟩ := mem_placeEach hplaced
  obtain ⟨hpinRole, hpinIndex, hlow, hhigh⟩ :=
    (h.fitted_parts _ hmem).pinsInOrder role _ _ hpin
  have hhouse := hhoused _ (mem_all_of_part hplaced (Gate.mem_all_self _)) role
  rw [hmade.isPlaced.component_eq] at hhouse
  have hbound : position < (placed.gate.result.nodesOf role).length := by
    rw [← hhouse.length_eq]
    exact (List.getElem?_eq_some_iff.mp hpin).1
  have hnode := List.getElem?_eq_getElem hbound
  refine ⟨hpinRole, hpinIndex, hlow, hhigh, _, hnode, (hhouse.getElem? hpin hnode).1, ?_⟩
  rcases hmade.shared_or_own hrole hpin hnode with hshared | ⟨hnew, hstatements⟩
  · exact .inl hshared
  · refine .inr ⟨hnew, fun wire hwire hwireRole hwireIndex statement hstatement => ?_⟩
    exact hstatements statement (mem_pinStatements.mpr ⟨wire, hwire, hwireRole.trans hpinRole.symm,
      hwireIndex.trans hpinIndex.symm, hstatement⟩)

include h hhoused hcarried in
/-- A bit of an input of a part is clear if all wires that take it are tied to zeros. -/
theorem bit_input_eq_false {placed : PlacedPart}
    (hplaced : placed ∈ innerParts sharing internals parts inputs outputs cursor)
    {position node bit : Nat} {pin : Pin}
    (hpin : placed.part.component.inputs[position]? = some pin)
    (hnode : placed.gate.result.inputs[position]? = some node) (hlt : bit < pin.width)
    (hidle : ∀ wire ∈ placed.part.wires, wire.partRole = .input → wire.partIndex = position →
      (pin.spanOf wire.partBits).Covers bit → wire.owner = .zeros) :
    (value node).getLsbD bit = false := by
  obtain ⟨-, hmade, -⟩ := mem_placeEach hplaced
  obtain ⟨hpinRole, hpinIndex, -, hhigh, found, hfound, hwidth, hcases⟩ :=
    exists_node h hhoused hplaced (show PinRole.input ≠ .internal by simp) hpin
  obtain rfl : found = node := Option.some.inj (hfound.symm.trans hnode)
  rcases hcases with hshared | ⟨hnew, -⟩
  · obtain ⟨wire, hwire, hrole, hindex, hwhole, hfar, -⟩ := share?_eq_some hshared
    simp only [Wire.isWhole, Bool.and_eq_true, Option.isNone_iff_eq_none] at hwhole
    have hzeros := hidle wire hwire (hrole.trans hpinRole) (hindex.trans hpinIndex) (by
      rw [hwhole.1]
      exact BitSpan.covers_whole hlt hhigh)
    rw [hzeros] at hfar
    cases hfar
  · have hown : placed.inputs.result[position]? = some found := by
      rw [← hmade.isPlaced.inputs_eq]
      exact hnode
    obtain ⟨hentry, hdrivers⟩ := wire_of_driver_input h.fitted_parts h.fitting h.seat h.owned
      hplaced hpin hown hnew
    refine hcarried.rest found bit hentry fun driver hdriver hbit => ?_
    obtain ⟨wire, hwire, hrole, hindex, statement, hstatement, rfl⟩ :=
      hdrivers driver hdriver hbit.drives
    have hspan := spanAt_eq hwidth wire.partBits
    rcases statement?_eq_some hstatement with ⟨-, other, hother, rfl⟩ | ⟨hne, -⟩ | ⟨-, hones, rfl⟩
    · rw [hidle wire hwire hrole hindex (hspan ▸ hbit.2)] at hother
      cases hother
    · exact hne hrole
    · rw [hidle wire hwire hrole hindex (hspan ▸ hbit.2)] at hones
      cases hones

include h hhoused in
theorem exists_node_owner {role : PinRole} {index : Nat} {far : Pin}
    (hfar : ((Component.composite interface internals parts dependencies).pinsOf role)[index]? =
      some far) :
    1 ≤ far.width ∧ far.width ≤ 16 ∧ ∃ node,
      (innerScope internals inputs outputs cursor).node? (.pin role index) = some node ∧
      ((place sharing (.composite interface internals parts dependencies) inputs outputs
        cursor).result.nodesOf role)[index]? = some node ∧ width node = far.width := by
  obtain ⟨-, -, hlow, hhigh⟩ := h.fitted.pinsInOrder role _ _ hfar
  have hhouse := hhoused _ (Gate.mem_all_self _) role
  rw [(isPlaced _ _ _ _ _).component_eq] at hhouse
  have hbound := (List.getElem?_eq_some_iff.mp hfar).1
  rw [hhouse.length_eq] at hbound
  have hnode := List.getElem?_eq_getElem hbound
  refine ⟨hlow, hhigh, _, ?_, hnode, (hhouse.getElem? hfar hnode).1⟩
  rw [node?_pin, ← nodesOf_place_composite]
  exact hnode

include h hhoused hcarried in
/-- A bit of a pin that parts can drive is clear if none does. -/
theorem bit_driven_eq_false {role : PinRole} (hrole : role ≠ .input) {index node bit : Nat}
    {pin : Pin} (hpin : ((Component.composite interface internals parts
      dependencies).pinsOf role)[index]? = some pin)
    (hnode : (innerScope internals inputs outputs cursor).node? (.pin role index) = some node)
    (hlt : bit < pin.width)
    (hidle : ∀ part ∈ parts, ∀ wire ∈ part.wires, wire.partRole = .output →
      wire.owner = .pin role index → ¬ (pin.spanOf wire.ownerBits).Covers bit) :
    (value node).getLsbD bit = false := by
  obtain ⟨-, hhigh, found, hfound, -, hwidth⟩ := exists_node_owner h hhoused hpin
  obtain rfl : found = node := Option.some.inj (hfound.symm.trans hnode)
  rcases wire_of_driver_pin h.fitted_parts h.fitting h.seat h.owned hrole hnode with
    ⟨placed, hplaced, wire, hwire, hout, howner, hwhole, -⟩ | ⟨hentry, hdrivers⟩
  · simp only [Wire.isWhole, Bool.and_eq_true, Option.isNone_iff_eq_none] at hwhole
    refine absurd ?_ (hidle _ (mem_placeEach hplaced).1 wire hwire hout howner)
    rw [hwhole.2]
    exact BitSpan.covers_whole hlt hhigh
  · refine hcarried.rest found bit hentry fun driver hdriver hbit => ?_
    obtain ⟨placed, hplaced, wire, hwire, hout, howner, source, -, rfl⟩ :=
      hdrivers driver hdriver hbit.drives
    refine hidle _ (mem_placeEach hplaced).1 wire hwire hout howner ?_
    rw [← spanAt_eq hwidth]
    exact hbit.2

include h hhoused hcarried in
/-- A wire that joins two pins of one width carries the same bits at both ends. -/
theorem agrees_of_pins {placed : PlacedPart}
    (hplaced : placed ∈ innerParts sharing internals parts inputs outputs cursor) {wire : Wire}
    (hwire : wire ∈ placed.part.wires) (hrole : wire.partRole ≠ .internal) {pin far : Pin}
    (hpin : (placed.part.component.pinsOf wire.partRole)[wire.partIndex]? = some pin)
    {role : PinRole} {index : Nat} (howner : wire.owner = .pin role index)
    (hfar : ((Component.composite interface internals parts dependencies).pinsOf role)[index]? =
      some far) (hwidths : pin.widthOf wire.partBits = far.widthOf wire.ownerBits) :
    wire.Agrees value (place sharing (.composite interface internals parts dependencies) inputs
      outputs cursor).result placed.gate.result := by
  obtain ⟨-, hmade, -⟩ := mem_placeEach hplaced
  obtain ⟨hpinRole, hpinIndex, hlow, hhigh, node, hnode, hnodeWidth, hcases⟩ :=
    exists_node h hhoused hplaced hrole hpin
  obtain ⟨hfarLow, hfarHigh, other, hscope, hother, hotherWidth⟩ :=
    exists_node_owner h hhoused hfar
  have heven : (pin.spanOf wire.partBits).width = (far.spanOf wire.ownerBits).width := by
    rw [Pin.width_spanOf hlow hhigh, Pin.width_spanOf hfarLow hfarHigh, hwidths]
  rw [← hmade.isPlaced.component_eq] at hpin
  rw [← (isPlaced sharing (.composite interface internals parts dependencies) inputs outputs
    cursor).component_eq] at hfar
  refine .joined hpin hnode howner hfar hother heven fun position hposition => ?_
  rcases hcases with hshared | ⟨-, hstatements⟩
  · -- the pin has no other wire, so this one joins all bits of one node to themselves
    obtain ⟨whole, -, -, -, hwhole, hsame, honly⟩ := share?_eq_some hshared
    obtain rfl := honly wire hwire hpinRole.symm hpinIndex.symm
    rw [howner, hscope] at hsame
    simp only [Wire.isWhole, Bool.and_eq_true, Option.isNone_iff_eq_none] at hwhole
    rw [Option.some.inj hsame, hwhole.1, hwhole.2]
    rfl
  · rw [← spanAt_eq hnodeWidth] at hposition heven ⊢
    rw [← spanAt_eq hotherWidth] at heven ⊢
    have hhas : ∀ statement, (innerScope internals inputs outputs cursor).statement? node wire =
        some statement → ∀ driven, (Driver.statement statement).Drives driven →
          drivers (.statement statement) := by
      intro statement hstatement driven hdrives
      exact h.has _ driven ((has_composite hdrives).mpr
        ⟨placed, hplaced, hstatements wire hwire rfl rfl statement hstatement⟩) hdrives
    rw [← howner] at hscope
    cases hwireRole : wire.partRole with
    | input =>
      refine hcarried.link other wire.ownerBits node wire.partBits (hhas _ ?_ node rfl)
        position hposition
      rw [statement?, hscope, hwireRole]
    | output =>
      refine (hcarried.link node wire.partBits other wire.ownerBits (hhas _ ?_ other rfl)
        position (heven ▸ hposition)).symm
      rw [statement?, hscope, hwireRole]
    | internal => exact absurd hwireRole hrole

include h hhoused hcarried in
theorem agrees_of_constant {placed : PlacedPart}
    (hplaced : placed ∈ innerParts sharing internals parts inputs outputs cursor) {wire : Wire}
    (hwire : wire ∈ placed.part.wires) (hrole : wire.partRole = .input) {pin : Pin}
    (hpin : placed.part.component.inputs[wire.partIndex]? = some pin)
    (hbits : pin.Has wire.partBits) (howner : wire.owner = .ones ∨ wire.owner = .zeros)
    {owner : Gate} : wire.Agrees value owner placed.gate.result := by
  obtain ⟨hmem, hmade, -⟩ := mem_placeEach hplaced
  obtain ⟨hpinRole, hpinIndex, hlow, -, node, hnode, hwidth, hcases⟩ :=
    exists_node h hhoused hplaced (show PinRole.input ≠ .internal by simp) hpin
  have hpinOf : (placed.gate.result.component.pinsOf wire.partRole)[wire.partIndex]? =
      some pin := by
    rw [hmade.isPlaced.component_eq, hrole]
    exact hpin
  rcases howner with hones | hzeros
  · refine .tied hpinOf (by rw [hrole]; exact hnode)
      (show wire.owner = if true then .ones else .zeros from hones) fun bit hcovers => ?_
    rcases hcases with hshared | ⟨-, hstatements⟩
    · obtain ⟨whole, -, -, -, -, hsame, honly⟩ := share?_eq_some hshared
      obtain rfl := honly wire hwire (hrole.trans hpinRole.symm) hpinIndex.symm
      rw [hones] at hsame
      cases hsame
    · have hstatement : (innerScope internals inputs outputs cursor).statement? node wire =
          some (.raise node wire.partBits) := by
        simp [statement?, hones, hrole, node?]
      have hraises : (Driver.statement (.raise node wire.partBits)).Drives node := rfl
      refine hcarried.raise node wire.partBits (h.has _ node ((has_composite hraises).mpr
        ⟨placed, hplaced, hstatements wire hwire hrole rfl _ hstatement⟩) hraises) bit ?_
      rwa [spanAt_eq hwidth]
  · refine .tied hpinOf (by rw [hrole]; exact hnode)
      (show wire.owner = if false then .ones else .zeros from hzeros) fun bit hcovers => ?_
    refine bit_input_eq_false h hhoused hcarried hplaced hpin hnode
      (hbits.lt_of_covers hlow hcovers) fun other hother hotherRole hotherIndex hcovers' => ?_
    -- another wire would overlap this one
    by_contra hne
    have hapart := h.fitting.inputs_apart _ hmem wire hwire other hother
      (fun heq => hne (heq ▸ hzeros)) hrole hotherRole hotherIndex.symm pin hpin
    rw [BitSpan.overlaps_of_covers hcovers hcovers'] at hapart
    cases hapart

include h hhoused hcarried in
/-- Both ends of every wire of every part carry the same bits. -/
theorem agrees {placed : PlacedPart}
    (hplaced : placed ∈ innerParts sharing internals parts inputs outputs cursor) {wire : Wire}
    (hwire : wire ∈ placed.part.wires) :
    wire.Agrees value (place sharing (.composite interface internals parts dependencies) inputs
      outputs cursor).result placed.gate.result := by
  have hfits := h.fitting.fits _ (mem_placeEach hplaced).1 wire hwire
  cases hfits with
  | tied hpin hbits hconstant =>
    exact agrees_of_constant h hhoused hcarried hplaced hwire rfl hpin hbits hconstant
  | read hpin _ _ hfar _ hwidths =>
    exact agrees_of_pins h hhoused hcarried hplaced hwire (by simp) hpin rfl hfar hwidths
  | drive hpin _ _ hfar _ hwidths =>
    exact agrees_of_pins h hhoused hcarried hplaced hwire (by simp) hpin rfl hfar hwidths

end Composite

end Spot

end ClockedLogic
