import ClockedLogic.Proofs.Drivers
import ClockedLogic.Proofs.GateTree

/-!
How the gates of a placed component are laid out, without regard to how they were placed. Each
pin inside a composite gate is, or follows, just those nodes that its wires join to it, and
no bit of a node has two drivers.
-/

namespace ClockedLogic

def Driver.From (origin : Nat → Prop) : Driver → Prop
  | .statement (.link source _ _ _) => origin source
  | .statement _ => True
  | .gate _ => False

/-- A wire into an input of a part that has a node at its far end reads a pin of the owner. -/
theorem Wire.Fits.reads {part : Component} {pinsOf : PinRole → List Pin} {wire : Wire}
    (h : wire.Fits part pinsOf) (hinput : wire.partRole = .input) {scope : Scope} {node : Nat}
    (hnode : scope.node? wire.owner = some node) :
    ∃ role index, role ≠ .output ∧ wire.owner = .pin role index := by
  cases h with
  | tied _ _ hconstant => rcases hconstant with rfl | rfl <;> cases hnode
  | read _ _ hrole _ _ _ => exact ⟨_, _, hrole, rfl⟩
  | drive => cases hinput

section

variable (drivers : Driver → Prop) (entries : Nat → Prop)

/-- Whether a node is one of some nodes, or takes its bits from them and from constants only. -/
def Follows (node : Nat) (origin : Nat → Prop) : Prop :=
  origin node ∨ ¬ entries node ∧
    ∀ driver, drivers driver → driver.Drives node → driver.From origin

def Reads (owner : Gate) (part : Part Component) (position node : Nat) : Prop :=
  ∃ wire ∈ part.wires, wire.partRole = .input ∧ wire.partIndex = position ∧
    ∃ role index, role ≠ .output ∧ wire.owner = .pin role index ∧
      (owner.nodesOf role)[index]? = some node

def Writes (pairs : List (Part Component × Gate)) (role : PinRole) (index node : Nat) : Prop :=
  ∃ pair ∈ pairs, ∃ wire ∈ pair.1.wires, wire.partRole = .output ∧ wire.owner = .pin role index ∧
    pair.2.outputs[wire.partIndex]? = some node

/-- Gates whose nodes are joined as the wires of their components say. -/
inductive Laid : Gate → Prop where
  | builtIn {site : Site} {kind : Primitive} (hcomponent : site.component = kind.component)
    (hinputs : site.inputs.length = kind.component.inputs.length)
    (houtputs : site.outputs.length = kind.component.outputs.length)
    (hnodup : site.outputs.Nodup)
    (hentries : ∀ node ∈ site.outputs, ¬ entries node)
    (honly : ∀ driver node, drivers driver → driver.Drives node → node ∈ site.outputs →
      driver = .gate (.builtIn site (.primitive kind))) :
    Laid (.builtIn site (.primitive kind))
  | composite {site : Site} {internals : List Nat} {gates : List Gate}
    (pairs : List (Part Component × Gate)) {interface : Interface} {pins : List Pin}
    {parts : List (Part Component)} {dependencies : Digraph Vertex}
    (hcomponent : site.component = .composite interface pins parts dependencies)
    (houtputs : site.outputs.length = interface.outputs.length)
    (hparts : parts = pairs.map Prod.fst) (hgates : gates = pairs.map Prod.snd)
    (hwiring : Wiring interface pins parts
      (Component.composite interface pins parts dependencies).pinsOf)
    (hlaid : ∀ pair ∈ pairs, Laid pair.2)
    (hsame : ∀ pair ∈ pairs, pair.2.component = pair.1.component)
    (hinputs : ∀ pair ∈ pairs, ∀ (position node : Nat), pair.2.inputs[position]? = some node →
      Follows drivers entries node
        (Reads (.composite site internals gates) pair.1 position))
    (hpins : ∀ role index node, role ≠ .input →
      ((Gate.composite site internals gates).nodesOf role)[index]? = some node →
      Follows drivers entries node (Writes pairs role index)) :
    Laid (.composite site internals gates)

/-- Whether nothing else drives the nodes of what has been placed. -/
structure Owned (placed : Placed Gate) (start : Cursor) : Prop where
  has : ∀ driver node, drivers driver → driver.Drives node → placed.Reaches start node →
    placed.Has driver
  entries : ∀ node, placed.Reaches start node → ¬ entries node

end

namespace Component

variable {drivers : Driver → Prop} {entries : Nat → Prop} {sharing : Bool}
  {interface : Interface} {internals : List Pin} {parts : List (Part Component)}
  {dependencies : Digraph Vertex} {pinsOf : PinRole → List Pin} {inputs outputs : List Nat}
  {cursor : Cursor}

/-- Two inputs of parts with the same new node are one input. -/
theorem same_input (hfitting : Fitting interface internals parts pinsOf) {a b : PlacedPart}
    (ha : a ∈ innerParts sharing internals parts inputs outputs cursor)
    (hb : b ∈ innerParts sharing internals parts inputs outputs cursor) {position position' : Nat}
    {pin pin' : Pin} {node : Nat} (hpin : a.part.component.inputs[position]? = some pin)
    (hpin' : b.part.component.inputs[position']? = some pin')
    (hnode : a.inputs.result[position]? = some node)
    (hnode' : b.inputs.result[position']? = some node)
    (hrange : a.start.nodes ≤ node ∧ node < a.inputs.cursor.nodes)
    (hrange' : b.start.nodes ≤ node ∧ node < b.inputs.cursor.nodes)
    (hnew : (innerScope internals inputs outputs cursor).share? sharing a.part.wires pin = none)
    (hnew' : (innerScope internals inputs outputs cursor).share? sharing b.part.wires pin' = none) :
    a = b ∧ position = position' := by
  obtain ⟨-, hpart, -⟩ := mem_placeEach ha
  have hle := hpart.le
  have hle' := (mem_placeEach hb).2.1.le
  obtain rfl : a = b := by
    rcases placeEach_apart hfitting.positions ha hb with rfl | ⟨-, hcase⟩
    · rfl
    · omega
  exact ⟨rfl, hpart.inputs.apart _ _ _ _ _ hpin hpin' hnew hnew' hnode hnode'⟩

section Composite

variable (hparts : ∀ part ∈ parts, Fitted part.component)
  (hfitting : Fitting interface internals parts
    (composite interface internals parts dependencies).pinsOf)
  (hseat : Seat inputs outputs cursor)
  (howned : Owned drivers entries (place sharing
    (composite interface internals parts dependencies) inputs outputs cursor) cursor)

include hparts hfitting hseat howned

theorem owned_part {placed : PlacedPart}
    (hplaced : placed ∈ innerParts sharing internals parts inputs outputs cursor) :
    Owned drivers entries placed.gate placed.outputs.cursor where
  has driver node hdriver hdrives hreaches := by
    have hwhole := reaches_of_part hparts hfitting hseat hplaced hreaches
    obtain ⟨other, hother, hhas⟩ := (has_composite hdrives).mp
      (howned.has driver node hdriver hdrives hwhole)
    exact (owner hparts hfitting hseat).gate_has hother hplaced
      (partDrives hparts hfitting hseat hother hhas hdrives) hreaches
  entries node hreaches :=
    howned.entries node (reaches_of_part hparts hfitting hseat hplaced hreaches)

/-- What drives the own node of an input is a statement for a wire into the input. -/
theorem wire_of_driver_input {placed : PlacedPart}
    (hplaced : placed ∈ innerParts sharing internals parts inputs outputs cursor)
    {position node : Nat} {pin : Pin} (hpin : placed.part.component.inputs[position]? = some pin)
    (hnode : placed.inputs.result[position]? = some node)
    (hnew : (innerScope internals inputs outputs cursor).share? sharing placed.part.wires pin =
      none) :
    ¬ entries node ∧ ∀ driver, drivers driver → driver.Drives node →
      ∃ wire ∈ placed.part.wires, wire.partRole = .input ∧ wire.partIndex = position ∧
        ∃ statement, (innerScope internals inputs outputs cursor).statement? node wire =
          some statement ∧ driver = .statement statement := by
  obtain ⟨hmem, hpart, hstart, hend⟩ := mem_placeEach hplaced
  have hle := hpart.le
  have howner := owner hparts hfitting hseat
  rcases hpart.inputs.found _ _ _ hpin hnode with hshared | ⟨-, hlow, hhigh⟩
  · rw [hnew] at hshared
    cases hshared
  have hinner : cursor.nodes ≤ (innerCursor internals cursor).nodes := Nat.le_add_right _ _
  have hreaches : (place sharing (composite interface internals parts dependencies) inputs
      outputs cursor).Reaches cursor node := by
    rw [Placed.Reaches, nodes_place_composite]
    omega
  refine ⟨howned.entries node hreaches, fun driver hdriver hdrives => ?_⟩
  obtain ⟨other, hother, hhas⟩ := (has_composite hdrives).mp
    (howned.has driver node hdriver hdrives hreaches)
  obtain ⟨-, hpart', hstart', -⟩ := mem_placeEach hother
  have hle' := hpart'.le
  have happart := placeEach_apart hfitting.positions hplaced hother
  cases partDrives hparts hfitting hseat hother hhas hdrives with
  | @input position' _ _ wire statement hpin' hnode' hnew' hlow' hhigh' hwire hwireRole hwireIndex
      hstatement =>
    obtain ⟨rfl, rfl⟩ := same_input hfitting hplaced hother hpin hpin' hnode hnode'
      ⟨hlow, hhigh⟩ ⟨hlow', hhigh'⟩ hnew hnew'
    exact ⟨wire, hwire, hwireRole, hwireIndex, statement, hstatement, rfl⟩
  | output _ _ _ _ _ hfar =>
    have hbelow := howner.below _ _ hfar
    omega
  | inside _ _ hinside =>
    rcases howner.reaches_cases hother hinside with hrange | ⟨_, -, -, -, hfar, -⟩
    · rcases happart with rfl | ⟨-, hcase⟩ <;> omega
    · have hbelow := howner.below _ _ hfar
      omega

theorem follows_input {placed : PlacedPart}
    (hplaced : placed ∈ innerParts sharing internals parts inputs outputs cursor)
    {position node : Nat} (hnode : placed.inputs.result[position]? = some node)
    {origin : Nat → Prop}
    (horigin : ∀ wire ∈ placed.part.wires, wire.partRole = .input → wire.partIndex = position →
      ∀ other, (innerScope internals inputs outputs cursor).node? wire.owner = some other →
        origin other) : Follows drivers entries node origin := by
  obtain ⟨hmem, hpart, -⟩ := mem_placeEach hplaced
  have hbound : position < placed.part.component.inputs.length := by
    rw [← hpart.inputs.length]
    exact (List.getElem?_eq_some_iff.mp hnode).1
  have hpin := List.getElem?_eq_getElem hbound
  obtain ⟨hrole, hindex, -⟩ := (hparts _ hmem).pinsInOrder .input _ _ hpin
  rcases hpart.inputs.found _ _ _ hpin hnode with hshared | ⟨hnew, -⟩
  · obtain ⟨wire, hwire, hwireRole, hwireIndex, -, hfar, -⟩ := Scope.share?_eq_some hshared
    exact .inl (horigin wire hwire (hwireRole.trans hrole) (hwireIndex.trans hindex) node hfar)
  · obtain ⟨hentry, hdrivers⟩ :=
      wire_of_driver_input hparts hfitting hseat howned hplaced hpin hnode hnew
    refine .inr ⟨hentry, fun driver hdriver hdrives => ?_⟩
    obtain ⟨wire, hwire, hwireRole, hwireIndex, statement, hstatement, rfl⟩ :=
      hdrivers driver hdriver hdrives
    rcases Scope.statement?_eq_some hstatement with ⟨-, far, hfar, rfl⟩ | ⟨hne, -⟩ | ⟨-, -, rfl⟩
    · exact horigin wire hwire hwireRole hwireIndex far hfar
    · exact absurd hwireRole hne
    · trivial

/-- The node of a pin of the owner is that of an output which drives the whole pin, or it is driven
by links for wires to the pin. -/
theorem wire_of_driver_pin {role : PinRole} {index node : Nat} (hrole : role ≠ .input)
    (hnode : (innerScope internals inputs outputs cursor).node? (.pin role index) = some node) :
    (∃ placed ∈ innerParts sharing internals parts inputs outputs cursor,
      ∃ wire ∈ placed.part.wires, wire.partRole = .output ∧ wire.owner = .pin role index ∧
        wire.isWhole = true ∧ placed.outputs.result[wire.partIndex]? = some node) ∨
    ¬ entries node ∧ ∀ driver, drivers driver → driver.Drives node →
      ∃ placed ∈ innerParts sharing internals parts inputs outputs cursor,
        ∃ wire ∈ placed.part.wires, wire.partRole = .output ∧ wire.owner = .pin role index ∧
          ∃ source, placed.outputs.result[wire.partIndex]? = some source ∧
            driver = .statement (.link source wire.partBits node wire.ownerBits) := by
  have howner := owner hparts hfitting hseat
  -- a wire to the node is a wire to the pin
  have hsame : ∀ placed ∈ innerParts sharing internals parts inputs outputs cursor,
      ∀ wire ∈ placed.part.wires, wire.partRole = .output →
      (innerScope internals inputs outputs cursor).node? wire.owner = some node →
      wire.owner = .pin role index := by
    intro placed hplaced wire hwire hwireRole hfar
    obtain ⟨hmem, -⟩ := mem_placeEach hplaced
    obtain ⟨role', index', _, hwireOwner, hrole', -, -⟩ :=
      (hfitting.fits _ hmem _ hwire).drives hwireRole
    rw [hwireOwner] at hfar ⊢
    exact howner.injective _ _ _ _ _ hrole' hrole hfar hnode
  have hbelow := howner.below _ _ hnode
  by_cases hshared : ∃ placed ∈ innerParts sharing internals parts inputs outputs cursor,
      node ∈ placed.outputs.result
  · obtain ⟨placed, hplaced, hmem⟩ := hshared
    obtain ⟨position, hposition⟩ := List.mem_iff_getElem?.mp hmem
    obtain ⟨-, hpart, hstart, -⟩ := mem_placeEach hplaced
    have hle := hpart.le
    obtain ⟨_, -, ⟨-, hlow, -⟩ | ⟨wire, hwire, hwireRole, rfl, hwhole, hfar, -⟩⟩ :=
      howner.output_cases hplaced hposition
    · omega
    · exact .inl ⟨placed, hplaced, wire, hwire, hwireRole,
        hsame placed hplaced wire hwire hwireRole hfar, hwhole, hposition⟩
  · have hreaches : (place sharing (composite interface internals parts dependencies) inputs
        outputs cursor).Reaches cursor node := reaches_of_pin hrole hnode
    refine .inr ⟨howned.entries node hreaches, fun driver hdriver hdrives => ?_⟩
    obtain ⟨placed, hplaced, hhas⟩ := (has_composite hdrives).mp
      (howned.has driver node hdriver hdrives hreaches)
    obtain ⟨-, hpart, hstart, -⟩ := mem_placeEach hplaced
    have hle := hpart.le
    cases partDrives hparts hfitting hseat hplaced hhas hdrives with
    | input _ _ _ hlow => omega
    | @output source _ _ wire _ hsource _ hwire hwireRole hfar =>
      exact ⟨placed, hplaced, wire, hwire, hwireRole,
        hsame placed hplaced wire hwire hwireRole hfar, source, hsource, rfl⟩
    | inside _ _ hinside =>
      rcases hinside with hrange | hmem
      · omega
      · rw [hpart.isPlaced.outputs_eq] at hmem
        exact absurd ⟨placed, hplaced, hmem⟩ hshared

theorem follows_pin {role : PinRole} {index node : Nat} (hrole : role ≠ .input)
    (hnode : (innerScope internals inputs outputs cursor).node? (.pin role index) = some node)
    {origin : Nat → Prop}
    (horigin : ∀ placed ∈ innerParts sharing internals parts inputs outputs cursor,
      ∀ wire ∈ placed.part.wires, wire.partRole = .output → wire.owner = .pin role index →
      ∀ other, placed.outputs.result[wire.partIndex]? = some other → origin other) :
    Follows drivers entries node origin := by
  rcases wire_of_driver_pin hparts hfitting hseat howned hrole hnode with
    ⟨placed, hplaced, wire, hwire, hwireRole, hwireOwner, -, hposition⟩ | ⟨hentry, hdrivers⟩
  · exact .inl (horigin placed hplaced wire hwire hwireRole hwireOwner node hposition)
  · refine .inr ⟨hentry, fun driver hdriver hdrives => ?_⟩
    obtain ⟨placed, hplaced, wire, hwire, hwireRole, hwireOwner, source, hsource, rfl⟩ :=
      hdrivers driver hdriver hdrives
    exact horigin placed hplaced wire hwire hwireRole hwireOwner source hsource

/-- An input of a part reads the nodes that its wires come from. -/
theorem follows_reads {placed : PlacedPart}
    (hplaced : placed ∈ innerParts sharing internals parts inputs outputs cursor)
    {position node : Nat} (hnode : placed.gate.result.inputs[position]? = some node) :
    Follows drivers entries node (Reads (place sharing
      (composite interface internals parts dependencies) inputs outputs cursor).result
      placed.part position) := by
  obtain ⟨hmem, hpart, -⟩ := mem_placeEach hplaced
  rw [hpart.isPlaced.inputs_eq] at hnode
  apply follows_input hparts hfitting hseat howned hplaced hnode
  intro wire hwire hrole hindex other hother
  obtain ⟨role, index, hnotOutput, hwireOwner⟩ :=
    (hfitting.fits _ hmem _ hwire).reads hrole hother
  rw [hwireOwner, Scope.node?_pin, ← nodesOf_place_composite] at hother
  exact ⟨wire, hwire, hrole, hindex, role, index, hnotOutput, hwireOwner, hother⟩

/-- A pin of the owner is written by the nodes that its wires come from. -/
theorem follows_writes {role : PinRole} (hrole : role ≠ .input) {index node : Nat}
    (hnode : ((place sharing (composite interface internals parts dependencies) inputs outputs
      cursor).result.nodesOf role)[index]? = some node) :
    Follows drivers entries node (Writes
      ((innerParts sharing internals parts inputs outputs cursor).map
        fun placed => (placed.part, placed.gate.result)) role index) := by
  rw [nodesOf_place_composite, ← Scope.node?_pin] at hnode
  apply follows_pin hparts hfitting hseat howned hrole hnode
  intro placed hplaced wire hwire hwireRole hwireOwner other hother
  rw [← (mem_placeEach hplaced).2.1.isPlaced.outputs_eq] at hother
  exact ⟨_, List.mem_map_of_mem hplaced, wire, hwire, hwireRole, hwireOwner, hother⟩

end Composite

theorem mem_all_of_part {placed : PlacedPart}
    (hplaced : placed ∈ innerParts sharing internals parts inputs outputs cursor) {gate : Gate}
    (hgate : gate ∈ placed.gate.result.all) :
    gate ∈ (place sharing (composite interface internals parts dependencies) inputs outputs
      cursor).result.all :=
  mem_all_place_composite.mpr (.inr ⟨placed, hplaced, hgate⟩)

theorem laid_primitive {kind : Primitive} (hseat : Seat inputs outputs cursor)
    (hinputsLength : inputs.length = kind.component.inputs.length)
    (houtputsLength : outputs.length = kind.component.outputs.length)
    (howned : Owned drivers entries (place sharing kind.component inputs outputs cursor) cursor) :
    Laid drivers entries (place sharing kind.component inputs outputs cursor).result := by
  have hmade : (place sharing kind.component inputs outputs cursor).result =
      .builtIn ⟨cursor.gates, kind.component, inputs, outputs⟩ (.primitive kind) := by
    rw [Primitive.component, place]
  have hreaches : ∀ node ∈ outputs,
      (place sharing kind.component inputs outputs cursor).Reaches cursor node := by
    intro node hnode
    rw [Placed.Reaches, (isPlaced _ _ _ _ _).outputs_eq]
    exact .inr hnode
  rw [hmade]
  refine .builtIn rfl hinputsLength houtputsLength hseat.nodup
    (fun node hnode => howned.entries node (hreaches node hnode)) ?_
  intro driver node hdriver hdrives hnode
  have hhas := howned.has driver node hdriver hdrives (hreaches node hnode)
  exact (has_builtIn hhas hdrives).1.trans (congrArg Driver.gate hmade)

/-- A placed component that owns its nodes is laid out as its wires say. -/
theorem laid {component : Component} (h : WellWired component)
    (hseat : Seat inputs outputs cursor) (hinputsLength : inputs.length = component.inputs.length)
    (houtputsLength : outputs.length = component.outputs.length)
    (howned : Owned drivers entries (place sharing component inputs outputs cursor) cursor) :
    Laid drivers entries (place sharing component inputs outputs cursor).result := by
  induction h generalizing inputs outputs cursor with
  | primitive kind => exact laid_primitive hseat hinputsLength houtputsLength howned
  | @composite interface internals parts dependencies hparts hwiring ih =>
    have hresult := @parts_place_composite sharing interface internals parts dependencies inputs
      outputs cursor
    have hpartsEq := @part_innerParts sharing internals parts inputs outputs cursor
    have hfitted : ∀ part ∈ parts, Fitted part.component := fun part hpart =>
      (hparts part hpart).fitted
    have hfitting := hwiring.toFitting
    have hreads := @follows_reads _ _ _ _ _ _ dependencies _ _ _ hfitted hfitting hseat howned
    have hwrites := @follows_writes _ _ _ _ _ _ dependencies _ _ _ hfitted hfitting hseat howned
    have howner := owner hfitted hfitting hseat
    have hpartOwned := fun placed => @owned_part _ _ _ _ _ _ dependencies _ _ _ hfitted hfitting
      hseat howned placed
    unfold place at hreads hwrites hresult ⊢
    refine .composite ((innerParts sharing internals parts inputs outputs cursor).map
      fun placed => (placed.part, placed.gate.result)) rfl houtputsLength ?_ ?_ hwiring ?_ ?_ ?_
      fun role index node hrole hnode => hwrites hrole hnode
    · rw [List.map_map]
      exact hpartsEq.symm
    · rw [List.map_map]
      exact hresult
    · intro pair hpair
      obtain ⟨placed, hplaced, rfl⟩ := List.mem_map.mp hpair
      obtain ⟨hmem, hpart, -⟩ := mem_placeEach hplaced
      have howns := hpartOwned placed hplaced
      simp only
      rw [hpart.gate_eq] at howns ⊢
      exact ih _ hmem (howner.seat hplaced) hpart.inputs.length hpart.outputs.length howns
    · intro pair hpair
      obtain ⟨placed, hplaced, rfl⟩ := List.mem_map.mp hpair
      exact (mem_placeEach hplaced).2.1.isPlaced.component_eq
    · intro pair hpair position node hnode
      obtain ⟨placed, hplaced, rfl⟩ := List.mem_map.mp hpair
      exact hreads hplaced hnode

variable {width : Nat → Nat} {bound : Nat}

/-- Two wires into pins of parts that have nodes of their own take different bits. -/
theorem input_unique (howner : Owner (innerScope internals inputs outputs cursor)
      (innerCursor internals cursor).nodes interface internals parts pinsOf)
    {a b : PlacedPart} (ha : a ∈ innerParts sharing internals parts inputs outputs cursor)
    (hb : b ∈ innerParts sharing internals parts inputs outputs cursor)
    (hhoused : Housed width bound a.gate.result) {position position' node : Nat} {pin pin' : Pin}
    {wire wire' : Wire} {statement statement' : Statement}
    (hpin : a.part.component.inputs[position]? = some pin)
    (hpin' : b.part.component.inputs[position']? = some pin')
    (hnode : a.inputs.result[position]? = some node)
    (hnode' : b.inputs.result[position']? = some node)
    (hrange : a.start.nodes ≤ node ∧ node < a.inputs.cursor.nodes)
    (hrange' : b.start.nodes ≤ node ∧ node < b.inputs.cursor.nodes)
    (hnew : (innerScope internals inputs outputs cursor).share? sharing a.part.wires pin = none)
    (hnew' : (innerScope internals inputs outputs cursor).share? sharing b.part.wires pin' = none)
    (hwire : wire ∈ a.part.wires) (hwire' : wire' ∈ b.part.wires) (hrole : wire.partRole = .input)
    (hrole' : wire'.partRole = .input) (hindex : wire.partIndex = position)
    (hindex' : wire'.partIndex = position')
    (hstatement : (innerScope internals inputs outputs cursor).statement? node wire =
      some statement)
    (hstatement' : (innerScope internals inputs outputs cursor).statement? node wire' =
      some statement') {bit : Nat}
    (hbit : (Driver.statement statement).DrivesBit width node bit)
    (hbit' : (Driver.statement statement').DrivesBit width node bit) : statement = statement' := by
  obtain ⟨hmem, hpart, -⟩ := mem_placeEach ha
  obtain ⟨rfl, rfl⟩ := same_input howner.fitting ha hb hpin hpin' hnode hnode' hrange hrange' hnew
    hnew'
  have hwidth : width node = pin.width := by
    have hnodes := hhoused .input
    rw [hpart.isPlaced.component_eq] at hnodes
    refine (hnodes.getElem? hpin ?_).1
    rw [Gate.nodesOf, hpart.isPlaced.inputs_eq]
    exact hnode
  have hcovers : ∀ (other : Wire) (made : Statement), other.partRole = .input →
      (innerScope internals inputs outputs cursor).statement? node other = some made →
      (Driver.statement made).DrivesBit width node bit →
      (pin.spanOf other.partBits).Covers bit := by
    intro other made hotherRole hmade hmadeBit
    rw [← spanAt_eq hwidth]
    rcases Scope.statement?_eq_some hmade with ⟨-, _, -, rfl⟩ | ⟨hne, -⟩ | ⟨-, -, rfl⟩
    · exact hmadeBit.2
    · exact absurd hotherRole hne
    · exact hmadeBit.2
  have hsame : wire = wire' := by
    by_contra hne
    subst hindex
    have hapart := howner.fitting.inputs_apart _ hmem _ hwire _ hwire' hne hrole hrole' hindex'.symm
      _ hpin
    rw [BitSpan.overlaps_of_covers (hcovers _ _ hrole hstatement hbit)
      (hcovers _ _ hrole' hstatement' hbit')] at hapart
    cases hapart
  rw [hsame] at hstatement
  exact Option.some.inj (hstatement.symm.trans hstatement')

theorem output_unique (howner : Owner (innerScope internals inputs outputs cursor)
      (innerCursor internals cursor).nodes interface internals parts pinsOf)
    {a b : PlacedPart} (ha : a ∈ innerParts sharing internals parts inputs outputs cursor)
    (hb : b ∈ innerParts sharing internals parts inputs outputs cursor)
    (hhoused : ∀ role, Scope.HousePins width bound (pinsOf role)
      ((innerScope internals inputs outputs cursor).nodesOf role)) {node : Nat} {wire wire' : Wire}
    (hwire : wire ∈ a.part.wires) (hwire' : wire' ∈ b.part.wires) (hrole : wire.partRole = .output)
    (hrole' : wire'.partRole = .output)
    (hnode : (innerScope internals inputs outputs cursor).node? wire.owner = some node)
    (hnode' : (innerScope internals inputs outputs cursor).node? wire'.owner = some node)
    {bit : Nat}
    (hbit : (spanAt width node wire.ownerBits).Covers bit)
    (hbit' : (spanAt width node wire'.ownerBits).Covers bit) : a = b ∧ wire = wire' := by
  obtain ⟨hmem, -⟩ := mem_placeEach ha
  obtain ⟨hmem', -⟩ := mem_placeEach hb
  obtain ⟨role, index, far, hfarOwner, hnotInput, hfar, -⟩ :=
    (howner.fitting.fits _ hmem _ hwire).drives hrole
  obtain ⟨role', index', far', hfarOwner', hnotInput', hfar', -⟩ :=
    (howner.fitting.fits _ hmem' _ hwire').drives hrole'
  rw [hfarOwner] at hnode
  rw [hfarOwner'] at hnode'
  obtain ⟨rfl, rfl⟩ := Endpoint.pin.inj
    (howner.injective _ _ _ _ _ hnotInput hnotInput' hnode hnode')
  rw [Scope.node?_pin] at hnode
  have hwidth := ((hhoused role).getElem? hfar hnode).1
  rw [spanAt_eq hwidth] at hbit hbit'
  by_contra hne
  have hdiffer : ¬ (a.part.position = b.part.position ∧ wire = wire') := by
    intro hboth
    obtain ⟨hposition, hsame⟩ := hboth
    rcases placeEach_apart howner.fitting.positions ha hb with rfl | ⟨hother, -⟩
    · exact hne ⟨rfl, hsame⟩
    · exact hother hposition
  have hapart :=
    howner.fitting.outputs_apart _ hmem _ hmem' _ hwire _ hwire' hdiffer hrole hrole' role
    index hfarOwner hfarOwner' far hfar
  rw [BitSpan.overlaps_of_covers hbit hbit'] at hapart
  cases hapart

/-- No bit of a node of a placed component has two drivers. -/
theorem driver_unique {component : Component} (h : Fitted component)
    (hseat : Seat inputs outputs cursor)
    (howned : Owned drivers entries (place sharing component inputs outputs cursor) cursor)
    (hhoused : ∀ gate ∈ (place sharing component inputs outputs cursor).result.all,
      Housed width bound gate) {node bit : Nat}
    (hreaches : (place sharing component inputs outputs cursor).Reaches cursor node)
    {driver other : Driver} (hdriver : drivers driver) (hother : drivers other)
    (hbit : driver.DrivesBit width node bit) (hbit' : other.DrivesBit width node bit) :
    driver = other := by
  induction h generalizing inputs outputs cursor with
  | @builtIn interface chip =>
    have honly : ∀ either, drivers either → either.DrivesBit width node bit →
        either = .gate (place sharing (.builtIn interface chip) inputs outputs cursor).result := by
      intro either heither heitherBit
      exact (has_builtIn (howned.has either node heither heitherBit.drives hreaches)
        heitherBit.drives).1
    rw [honly _ hdriver hbit, honly _ hother hbit']
  | @composite interface internals parts dependencies hparts hfitting ih =>
    have howner := owner hparts hfitting hseat
    have hinside : ∀ placed ∈ innerParts sharing internals parts inputs outputs cursor,
        placed.gate.Reaches placed.outputs.cursor node → driver = other := by
      intro placed hplaced hreachesPart
      obtain ⟨hmem, hpart, -⟩ := mem_placeEach hplaced
      have hpartOwned := owned_part hparts hfitting hseat howned hplaced
      have hpartHoused : ∀ gate ∈ placed.gate.result.all, Housed width bound gate :=
        fun gate hgate => hhoused gate (mem_all_of_part hplaced hgate)
      rw [hpart.gate_eq] at hpartOwned hpartHoused hreachesPart
      exact ih _ hmem (howner.seat hplaced) hpartOwned hpartHoused hreachesPart
    have hhousedOwner : ∀ role, Scope.HousePins width bound
        ((composite interface internals parts dependencies).pinsOf role)
        ((innerScope internals inputs outputs cursor).nodesOf role) := by
      intro role
      have hself := hhoused _ (Gate.mem_all_self _) role
      rw [(isPlaced _ _ _ _ _).component_eq, nodesOf_place_composite] at hself
      exact hself
    obtain ⟨a, ha, hhas⟩ := (has_composite hbit.drives).mp
      (howned.has driver node hdriver hbit.drives hreaches)
    obtain ⟨b, hb, hhas'⟩ := (has_composite hbit'.drives).mp
      (howned.has other node hother hbit'.drives hreaches)
    have hstart := (mem_placeEach ha).2.2.1
    have hstart' := (mem_placeEach hb).2.2.1
    cases partDrives hparts hfitting hseat ha hhas hbit.drives with
    | inside _ _ hreachesPart => exact hinside a ha hreachesPart
    | input hpin hnode hnew hlow hhigh hwire hrole hindex hstatement =>
      cases partDrives hparts hfitting hseat hb hhas' hbit'.drives with
      | inside _ _ hreachesPart => exact hinside b hb hreachesPart
      | input hpin' hnode' hnew' hlow' hhigh' hwire' hrole' hindex' hstatement' =>
        rw [input_unique howner ha hb (hhoused _ (mem_all_of_part ha (Gate.mem_all_self _))) hpin
          hpin' hnode hnode' ⟨hlow, hhigh⟩ ⟨hlow', hhigh'⟩ hnew hnew' hwire hwire' hrole hrole'
          hindex hindex' hstatement hstatement' hbit hbit']
      | output _ _ _ _ _ hnode' =>
        have hbelow := howner.below _ _ hnode'
        omega
    | output _ hsource _ hwire hrole hnode =>
      cases partDrives hparts hfitting hseat hb hhas' hbit'.drives with
      | inside _ _ hreachesPart => exact hinside b hb hreachesPart
      | input _ _ _ hlow' =>
        have hbelow := howner.below _ _ hnode
        omega
      | output _ hsource' _ hwire' hrole' hnode' =>
        obtain ⟨rfl, rfl⟩ := output_unique howner ha hb hhousedOwner hwire hwire' hrole hrole' hnode
          hnode' hbit.2 hbit'.2
        rw [Option.some.inj (hsource.symm.trans hsource')]

/-- Only pins of gates have drivers. -/
theorem pin_of_driver {component : Component} (h : Fitted component)
    (hseat : Seat inputs outputs cursor) {driver : Driver} {node : Nat}
    (hdriver : (place sharing component inputs outputs cursor).Has driver)
    (hdrives : driver.Drives node) :
    ∃ gate ∈ (place sharing component inputs outputs cursor).result.all,
      ∃ role, node ∈ gate.nodesOf role := by
  induction h generalizing inputs outputs cursor with
  | builtIn =>
    refine ⟨_, Gate.mem_all_self _, .output, ?_⟩
    rw [Gate.nodesOf, (isPlaced _ _ _ _ _).outputs_eq]
    exact (has_builtIn hdriver hdrives).2
  | @composite interface internals parts dependencies hparts hfitting ih =>
    obtain ⟨placed, hplaced, hhas⟩ := (has_composite hdrives).mp hdriver
    obtain ⟨hmem, hpart, -⟩ := mem_placeEach hplaced
    cases partDrives hparts hfitting hseat hplaced hhas hdrives with
    | input _ hnode =>
      refine ⟨_, mem_all_of_part hplaced (Gate.mem_all_self _), .input, ?_⟩
      rw [Gate.nodesOf, hpart.isPlaced.inputs_eq]
      exact List.mem_of_getElem? hnode
    | @output _ _ _ wire _ _ _ _ _ hnode =>
      refine ⟨_, Gate.mem_all_self _, ?_⟩
      cases howner : wire.owner with
      | pin role index =>
        rw [howner, Scope.node?_pin, ← nodesOf_place_composite] at hnode
        exact ⟨role, List.mem_of_getElem? hnode⟩
      | ones => rw [howner] at hnode; cases hnode
      | zeros => rw [howner] at hnode; cases hnode
    | inside hgate =>
      rw [hpart.gate_eq] at hgate
      obtain ⟨gate, hgateMem, hrole⟩ := ih _ hmem
        ((owner hparts hfitting hseat).seat hplaced) hgate
      rw [← hpart.gate_eq] at hgateMem
      exact ⟨gate, mem_all_of_part hplaced hgateMem, hrole⟩

end Component

end ClockedLogic
