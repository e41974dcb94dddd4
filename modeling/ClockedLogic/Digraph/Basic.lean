/-!
A directed graph keeps its nodes and the targets of each node in the order in which they were
first mentioned. A node is known inside the graph by its position, which later additions do
not change.
-/

namespace ClockedLogic

structure DigraphRow (α : Type) where
  label : α
  targets : List Nat
deriving DecidableEq, Repr

/-- Nodes and edges in order of first mention. -/
structure Digraph (α : Type) where
  rows : List (DigraphRow α)
deriving DecidableEq, Repr

namespace Digraph

variable {α : Type}

def empty : Digraph α := ⟨[]⟩

instance : Inhabited (Digraph α) := ⟨empty⟩

def nodes (graph : Digraph α) : List α := graph.rows.map (·.label)

def size (graph : Digraph α) : Nat := graph.rows.length

def targetsAt (graph : Digraph α) (position : Nat) : List Nat :=
  match graph.rows[position]? with
  | some row => row.targets
  | none => []

/-- The edges as pairs of positions, grouped by source. -/
def edgePositions (graph : Digraph α) : List (Nat × Nat) :=
  graph.rows.zipIdx.flatMap fun (row, position) =>
    row.targets.map fun target => (position, target)

def edges (graph : Digraph α) : List (α × α) :=
  graph.rows.flatMap fun row =>
    row.targets.filterMap fun target =>
      (graph.nodes[target]?).map fun label => (row.label, label)

variable [DecidableEq α]

def contains (graph : Digraph α) (node : α) : Bool := decide (node ∈ graph.nodes)

def indexOf (graph : Digraph α) (node : α) : Nat := graph.nodes.idxOf node

def indexOf? (graph : Digraph α) (node : α) : Option Nat := graph.nodes.idxOf? node

def successors (graph : Digraph α) (node : α) : List α :=
  match graph.indexOf? node with
  | some position => (graph.targetsAt position).filterMap (graph.nodes[·]?)
  | none => []

def addNode (graph : Digraph α) (node : α) : Digraph α :=
  if node ∈ graph.nodes then graph else ⟨graph.rows ++ [⟨node, []⟩]⟩

/-- Adds a node unless it is there already, and tells its position: the one it has, or else the
next one. -/
def insertNode (graph : Digraph α) (node : α) : Digraph α × Nat :=
  match graph.indexOf? node with
  | some position => (graph, position)
  | none => (⟨graph.rows ++ [⟨node, []⟩]⟩, graph.size)

/-- Adds an edge unless it is there already, and before it the nodes that are missing. -/
def addEdge (graph : Digraph α) (source target : α) : Digraph α :=
  let grown := (graph.addNode source).addNode target
  let position := grown.indexOf target
  ⟨grown.rows.modify (grown.indexOf source) fun row =>
    if position ∈ row.targets then row else { row with targets := row.targets ++ [position] }⟩

def link (graph : Digraph α) (source target : Nat) : Digraph α :=
  ⟨graph.rows.modify source fun row =>
    if target ∈ row.targets then row else { row with targets := row.targets ++ [target] }⟩

theorem nodes_addNode (graph : Digraph α) (node : α) :
    (graph.addNode node).nodes =
      if node ∈ graph.nodes then graph.nodes else graph.nodes ++ [node] := by
  unfold addNode
  split
  · rfl
  · simp [nodes]

theorem mem_nodes_addNode (graph : Digraph α) (node other : α) :
    other ∈ (graph.addNode node).nodes ↔ other ∈ graph.nodes ∨ other = node := by
  rw [nodes_addNode]
  split
  · rename_i h
    exact ⟨Or.inl, fun ho => ho.elim id fun he => he ▸ h⟩
  · simp

omit [DecidableEq α] in
theorem nodes_link (graph : Digraph α) (source target : Nat) :
    (graph.link source target).nodes = graph.nodes := by
  refine List.ext_getElem? fun i => ?_
  simp only [link, nodes, List.getElem?_map, List.getElem?_modify]
  rcases graph.rows[i]? with _ | row
  · rfl
  · simp only [Option.map_eq_map, Option.map_some]
    split
    · split <;> rfl
    · rfl

/-- An edge changes no label, so it adds just the nodes that are missing. -/
theorem nodes_addEdge (graph : Digraph α) (source target : α) :
    (graph.addEdge source target).nodes = ((graph.addNode source).addNode target).nodes :=
  nodes_link ..

def addEdges (graph : Digraph α) (edges : List (α × α)) : Digraph α :=
  edges.foldl (fun graph (source, target) => graph.addEdge source target) graph

end Digraph

end ClockedLogic
