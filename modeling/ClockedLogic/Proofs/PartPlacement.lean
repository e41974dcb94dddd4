import ClockedLogic.Proofs.PinPlacement
import ClockedLogic.Proofs.Wiring

/-!
Where the parts of a component go. Gates are numbered in their order and nodes in the order of
their making, a gate listens to its inputs only, and the statements for a well wired component
can all be carried out.
-/

namespace ClockedLogic

structure PlacedPart where
  part : Part Component
  start : Cursor
  inputs : Placed (List Nat)
  outputs : Placed (List Nat)
  gate : Placed Gate

def PlacedPart.statements (placed : PlacedPart) : List Statement :=
  placed.inputs.statements ++ placed.outputs.statements ++ placed.gate.statements

theorem Scope.PinsPlaced.listen_notMem {sharing : Bool} {scope : Scope} {wires : List Wire}
    {pins : List Pin} {cursor : Cursor}
    {placed : Placed (List Nat)} (h : PinsPlaced sharing scope wires pins cursor placed)
    (node gate : Nat) : .listen node gate ∉ placed.statements := by
  intro hmem
  rcases h.statements _ hmem with ⟨_, hnode⟩ | ⟨_, _, _, _, -, -, -, -, -, -, hstatement⟩
  · cases hnode
  · rcases Scope.statement?_eq_some hstatement with ⟨-, _, -, h⟩ | ⟨-, _, -, h⟩ | ⟨-, -, h⟩ <;>
      cases h

namespace Component

def placePart (sharing : Bool) (scope : Scope) (part : Part Component) (cursor : Cursor) :
    PlacedPart :=
  let inputs := scope.placePins sharing part.wires part.component.inputs cursor
  let outputs := scope.placePins sharing part.wires part.component.outputs inputs.cursor
  ⟨part, cursor, inputs, outputs,
    part.component.place sharing inputs.result outputs.result outputs.cursor⟩

/-- Places the parts of an owner, and keeps apart what belongs to each. -/
def placeEach (sharing : Bool) (scope : Scope) : List (Part Component) → Cursor → List PlacedPart
  | [], _ => []
  | part :: parts, cursor =>
    let placed := placePart sharing scope part cursor
    placed :: placeEach sharing scope parts placed.gate.cursor

variable {sharing : Bool} {scope : Scope}

structure PartPlaced (sharing : Bool) (scope : Scope) (placed : PlacedPart) : Prop where
  inputs_eq : placed.inputs = scope.placePins sharing placed.part.wires
    placed.part.component.inputs placed.start
  outputs_eq : placed.outputs = scope.placePins sharing placed.part.wires
    placed.part.component.outputs placed.inputs.cursor
  gate_eq : placed.gate = placed.part.component.place sharing placed.inputs.result
    placed.outputs.result placed.outputs.cursor

theorem partPlaced (sharing : Bool) (scope : Scope) (part : Part Component) (cursor : Cursor) :
    PartPlaced sharing scope (placePart sharing scope part cursor) :=
  ⟨rfl, rfl, rfl⟩

theorem PartPlaced.inputs {placed : PlacedPart} (h : PartPlaced sharing scope placed) :
    Scope.PinsPlaced sharing scope placed.part.wires placed.part.component.inputs placed.start
      placed.inputs := by
  rw [h.inputs_eq]
  exact Scope.pinsPlaced _ _ _ _ _

theorem PartPlaced.outputs {placed : PlacedPart} (h : PartPlaced sharing scope placed) :
    Scope.PinsPlaced sharing scope placed.part.wires placed.part.component.outputs
      placed.inputs.cursor placed.outputs := by
  rw [h.outputs_eq]
  exact Scope.pinsPlaced _ _ _ _ _

theorem placeParts_cons (part : Part Component) (parts : List (Part Component)) (cursor : Cursor) :
    placeParts sharing scope (part :: parts) cursor =
      let placed := placePart sharing scope part cursor
      let rest := placeParts sharing scope parts placed.gate.cursor
      ⟨placed.gate.result :: rest.result, placed.statements ++ rest.statements, rest.cursor⟩ := by
  rw [placeParts]
  rfl

theorem result_placeParts (sharing : Bool) (scope : Scope) (parts : List (Part Component))
    (cursor : Cursor) :
    (placeParts sharing scope parts cursor).result =
      (placeEach sharing scope parts cursor).map (·.gate.result) := by
  induction parts generalizing cursor with
  | nil => rw [placeParts]; rfl
  | cons part parts ih =>
    rw [placeParts_cons, placeEach, List.map_cons]
    exact congrArg _ (ih _)

theorem part_placeEach (sharing : Bool) (scope : Scope) (parts : List (Part Component))
    (cursor : Cursor) :
    (placeEach sharing scope parts cursor).map (·.part) = parts := by
  induction parts generalizing cursor with
  | nil => rfl
  | cons part parts ih => rw [placeEach, List.map_cons, ih]; rfl

theorem statements_placeParts (sharing : Bool) (scope : Scope) (parts : List (Part Component))
    (cursor : Cursor) :
    (placeParts sharing scope parts cursor).statements =
      (placeEach sharing scope parts cursor).flatMap PlacedPart.statements := by
  induction parts generalizing cursor with
  | nil => rw [placeParts]; rfl
  | cons part parts ih =>
    rw [placeParts_cons, placeEach, List.flatMap_cons]
    exact congrArg _ (ih _)

/-- What placing a component leads to, whatever its wires. -/
structure IsPlaced (component : Component) (inputs outputs : List Nat) (cursor : Cursor)
    (placed : Placed Gate) : Prop where
  component_eq : placed.result.component = component
  inputs_eq : placed.result.inputs = inputs
  outputs_eq : placed.result.outputs = outputs
  nodes : placed.cursor.nodes = cursor.nodes + Statement.nodeCount placed.statements
  gates : placed.cursor.gates = cursor.gates + placed.result.all.length
  indices : placed.result.all.map Gate.index =
    List.range' cursor.gates placed.result.all.length
  listens : ∀ node gate, .listen node gate ∈ placed.statements ↔
    ∃ found ∈ placed.result.all, found.index = gate ∧ node ∈ found.inputs

structure ArePlaced (cursor : Cursor) (placed : Placed (List Gate)) : Prop where
  nodes : placed.cursor.nodes = cursor.nodes + Statement.nodeCount placed.statements
  gates : placed.cursor.gates = cursor.gates + (Gate.allOf placed.result).length
  indices : (Gate.allOf placed.result).map Gate.index =
    List.range' cursor.gates (Gate.allOf placed.result).length
  listens : ∀ node gate, .listen node gate ∈ placed.statements ↔
    ∃ found ∈ Gate.allOf placed.result, found.index = gate ∧ node ∈ found.inputs

theorem arePlaced {parts : List (Part Component)}
    (h : ∀ part ∈ parts, ∀ inputs outputs cursor,
      IsPlaced part.component inputs outputs cursor
        (part.component.place sharing inputs outputs cursor)) (cursor : Cursor) :
    ArePlaced cursor (placeParts sharing scope parts cursor) := by
  induction parts generalizing cursor with
  | nil =>
    unfold placeParts
    exact ⟨rfl, rfl, rfl, by simp [Gate.allOf]⟩
  | cons part parts ih =>
    rw [placeParts_cons]
    generalize hplaced : placePart sharing scope part cursor = placed
    have hpart : PartPlaced sharing scope placed := hplaced ▸ partPlaced sharing scope part cursor
    have hsame : placed.part = part := by rw [← hplaced]; rfl
    have hfirst : placed.start = cursor := by rw [← hplaced]; rfl
    have hgate := h part List.mem_cons_self placed.inputs.result placed.outputs.result
      placed.outputs.cursor
    rw [← hsame, ← hpart.gate_eq] at hgate
    have hrest := ih (fun other hother => h other (List.mem_cons_of_mem _ hother))
      placed.gate.cursor
    have hstart : placed.outputs.cursor.gates = cursor.gates := by
      rw [hpart.outputs.gates, hpart.inputs.gates, hfirst]
    have hgates := hgate.gates
    rw [hstart] at hgates
    refine ⟨?_, ?_, ?_, fun node gate => ?_⟩
    · have hnodes := hpart.inputs.nodes
      rw [hfirst] at hnodes
      simp only [PlacedPart.statements, Statement.nodeCount_append]
      rw [hrest.nodes, hgate.nodes, hpart.outputs.nodes, hnodes]
      omega
    · simp only [Gate.allOf, List.length_append]
      rw [hrest.gates, hgates, Nat.add_assoc]
    · simp only [Gate.allOf, List.map_append, List.length_append]
      rw [hgate.indices, hrest.indices, hgates, hstart, List.range'_append_1]
    · simp only [PlacedPart.statements, List.mem_append, Gate.allOf, or_and_right, exists_or]
      rw [hgate.listens, hrest.listens]
      simp only [hpart.inputs.listen_notMem, hpart.outputs.listen_notMem, false_or]

/-- Placing a component numbers its gates and nodes in order. -/
theorem isPlaced (sharing : Bool) (component : Component) (inputs outputs : List Nat)
    (cursor : Cursor) :
    IsPlaced component inputs outputs cursor (component.place sharing inputs outputs cursor) := by
  induction component using Component.inductionOn generalizing inputs outputs cursor with
  | builtIn interface chip =>
    unfold place
    refine ⟨rfl, rfl, rfl, ?_, rfl, rfl, fun node gate => ?_⟩
    · rw [Statement.nodeCount_eq_zero]
      · rfl
      · intro statement hstatement
        obtain ⟨_, -, rfl⟩ := List.mem_map.mp hstatement
        rfl
    · simp [Gate.all, Gate.index, Gate.site, Gate.inputs, and_comm]
  | composite interface internals parts dependencies ih =>
    unfold place
    have hparts := @arePlaced sharing
      ⟨inputs, outputs, (List.range internals.length).map (cursor.nodes + ·)⟩ parts
      ih { cursor with nodes := cursor.nodes + internals.length }
    refine ⟨rfl, rfl, rfl, ?_, ?_, ?_, fun node gate => ?_⟩
    · have hnodes := hparts.nodes
      have hlistens : ∀ index, Statement.nodeCount
          (inputs.map fun node => Statement.listen node index) = 0 := by
        intro index
        apply Statement.nodeCount_eq_zero
        intro statement hstatement
        obtain ⟨_, -, rfl⟩ := List.mem_map.mp hstatement
        rfl
      simp only [Statement.nodeCount_append, Statement.nodeCount_nodes, hlistens] at hnodes ⊢
      omega
    · have hgates := hparts.gates
      simp only [Gate.all, List.length_append, List.length_singleton] at hgates ⊢
      omega
    · simp only [Gate.all, List.map_append, List.length_append, List.length_singleton]
      rw [hparts.indices, ← List.range'_append_1]
      simp [Gate.index, Gate.site, hparts.gates]
    · simp only [List.mem_append, List.mem_map, Gate.all, or_and_right, exists_or,
        List.mem_singleton, exists_eq_left]
      rw [hparts.listens]
      simp [Gate.index, Gate.site, Gate.inputs, and_comm]

theorem PartPlaced.isPlaced {placed : PlacedPart} (h : PartPlaced sharing scope placed) :
    IsPlaced placed.part.component placed.inputs.result placed.outputs.result placed.outputs.cursor
      placed.gate := by
  rw [h.gate_eq]
  exact Component.isPlaced _ _ _ _ _

/-- The pins of a part that its owner sees share their nodes with the owner, or have nodes of their
own with statements for all of their wires. -/
theorem PartPlaced.shared_or_own {placed : PlacedPart} (h : PartPlaced sharing scope placed)
    {role : PinRole} (hrole : role ≠ .internal) {position node : Nat} {pin : Pin}
    (hpin : (placed.part.component.pinsOf role)[position]? = some pin)
    (hnode : (placed.gate.result.nodesOf role)[position]? = some node) :
    scope.share? sharing placed.part.wires pin = some node ∨
      scope.share? sharing placed.part.wires pin = none ∧
        ∀ statement ∈ scope.pinStatements placed.part.wires pin node,
          statement ∈ placed.statements := by
  have hmem : ∀ {pins : List Pin} {cursor : Cursor} {made : Placed (List Nat)},
      made = scope.placePins sharing placed.part.wires pins cursor →
      (∀ statement ∈ made.statements, statement ∈ placed.statements) →
      pins[position]? = some pin → made.result[position]? = some node →
      scope.share? sharing placed.part.wires pin = some node ∨
        scope.share? sharing placed.part.wires pin = none ∧
          ∀ statement ∈ scope.pinStatements placed.part.wires pin node,
            statement ∈ placed.statements := by
    intro pins cursor made hmade hsub hpin hnode
    subst hmade
    rcases (Scope.pinsPlaced sharing scope placed.part.wires pins cursor).found _ _ _ hpin hnode
      with hshared | ⟨hnew, -⟩
    · exact .inl hshared
    · exact .inr ⟨hnew, fun statement hstatement =>
        hsub statement (Scope.mem_placePins hpin hnode hnew hstatement)⟩
  cases role with
  | input =>
    refine hmem h.inputs_eq (fun statement hstatement => ?_) hpin
      (by rw [← h.isPlaced.inputs_eq]; exact hnode)
    exact List.mem_append_left _ (List.mem_append_left _ hstatement)
  | output =>
    refine hmem h.outputs_eq (fun statement hstatement => ?_) hpin
      (by rw [← h.isPlaced.outputs_eq]; exact hnode)
    exact List.mem_append_left _ (List.mem_append_right _ hstatement)
  | internal => exact absurd rfl hrole

/-- The nodes of a part lie in one stretch: first those of its inputs, then those of its outputs,
then what is inside. -/
theorem PartPlaced.le {placed : PlacedPart} (h : PartPlaced sharing scope placed) :
    placed.start.nodes ≤ placed.inputs.cursor.nodes ∧
      placed.inputs.cursor.nodes ≤ placed.outputs.cursor.nodes ∧
      placed.outputs.cursor.nodes ≤ placed.gate.cursor.nodes := by
  have hinputs := h.inputs.nodes
  have houtputs := h.outputs.nodes
  have hgate := h.isPlaced.nodes
  omega

theorem mem_placeEach {parts : List (Part Component)} {cursor : Cursor} {placed : PlacedPart}
    (h : placed ∈ placeEach sharing scope parts cursor) :
    placed.part ∈ parts ∧ PartPlaced sharing scope placed ∧ cursor.nodes ≤ placed.start.nodes ∧
      placed.gate.cursor.nodes ≤ (placeParts sharing scope parts cursor).cursor.nodes := by
  induction parts generalizing cursor with
  | nil => cases h
  | cons part parts ih =>
    have hpart := partPlaced sharing scope part cursor
    have hle := hpart.le
    have hrest := (@arePlaced sharing scope parts
      (fun _ _ => isPlaced sharing _) (placePart sharing scope part cursor).gate.cursor).nodes
    rw [placeParts_cons]
    rcases List.mem_cons.mp h with rfl | h
    · refine ⟨List.mem_cons_self, hpart, Nat.le_refl _, ?_⟩
      simp only
      omega
    · obtain ⟨hmem, hplaced, hlow, hhigh⟩ := ih h
      refine ⟨List.mem_cons_of_mem _ hmem, hplaced, ?_, hhigh⟩
      have hstart : (placePart sharing scope part cursor).start = cursor := rfl
      rw [hstart] at hle
      omega

/-- Parts at different positions have their nodes in different stretches. -/
theorem placeEach_apart {parts : List (Part Component)} {cursor : Cursor}
    (hpositions : (parts.map (·.position)).Nodup) {a b : PlacedPart}
    (ha : a ∈ placeEach sharing scope parts cursor)
    (hb : b ∈ placeEach sharing scope parts cursor) :
    a = b ∨ a.part.position ≠ b.part.position ∧
      (a.gate.cursor.nodes ≤ b.start.nodes ∨ b.gate.cursor.nodes ≤ a.start.nodes) := by
  induction parts generalizing cursor with
  | nil => cases ha
  | cons part parts ih =>
    rw [List.map_cons, List.nodup_cons] at hpositions
    have hother : ∀ placed ∈ placeEach sharing scope parts
        (placePart sharing scope part cursor).gate.cursor,
        part.position ≠ placed.part.position ∧
          (placePart sharing scope part cursor).gate.cursor.nodes ≤ placed.start.nodes := by
      intro placed hplaced
      obtain ⟨hmem, -, hlow, -⟩ := mem_placeEach hplaced
      refine ⟨fun heq => hpositions.1 ?_, hlow⟩
      rw [heq]
      exact List.mem_map_of_mem hmem
    rcases List.mem_cons.mp ha with rfl | ha <;> rcases List.mem_cons.mp hb with rfl | hb
    · exact .inl rfl
    · exact .inr ⟨(hother b hb).1, .inl (hother b hb).2⟩
    · exact .inr ⟨(hother a ha).1.symm, .inr (hother a ha).2⟩
    · exact ih hpositions.2 ha hb

end Component

end ClockedLogic
