import ClockedLogic.Digraph.Basic

/-!
Depth first search from one node. A node is finished when everything it leads to is finished,
so the finished nodes, newest first, have every node before its targets unless there is a
circle. A circle shows as an edge back to a node on the current path.
-/

namespace ClockedLogic

/-- What a search has found: the finished positions, newest first, and the first node that was
met again while it was on the path. -/
structure Search where
  finished : List Nat
  circle : Option Nat
deriving DecidableEq, Repr

namespace Search

def start : Search := ⟨[], none⟩

/-- Visits a node that is neither finished nor on the path, and finishes it. The path holds the
nodes being visited, newest first; the first argument bounds how far the path may still grow. -/
def visit (targets : Nat → List Nat) : Nat → List Nat → Nat → Search → Search
  | 0, _, _, found => found
  | room + 1, path, node, found =>
    let found := (targets node).foldl (fun found next =>
      if next ∈ node :: path then { found with circle := found.circle.or (some next) }
      else if next ∈ found.finished then found
      else visit targets room (node :: path) next found) found
    { found with finished := node :: found.finished }

end Search

/-- The nodes that a search reached in an order that has each before its targets, and a node on
a circle if there is one. -/
structure Traversal (α : Type) where
  order : List α
  circle : Option α
deriving DecidableEq, Repr

namespace Digraph

variable {α : Type} [DecidableEq α]

/-- Searches from a position; a path visits no node twice, so it never outgrows the graph. -/
def searchFrom (graph : Digraph α) (position : Nat) : Search :=
  Search.visit graph.targetsAt graph.size [] position .start

def traverse (graph : Digraph α) (node : α) : Traversal α :=
  match graph.indexOf? node with
  | some position =>
    let found := graph.searchFrom position
    { order := found.finished.filterMap (graph.nodes[·]?)
      circle := found.circle.bind (graph.nodes[·]?) }
  | none => { order := [], circle := none }

/-- Whether one node of the graph leads to another; every node leads to itself. -/
def reaches (graph : Digraph α) (source target : α) : Bool :=
  match graph.indexOf? source, graph.indexOf? target with
  | some source, some target => decide (target ∈ (graph.searchFrom source).finished)
  | _, _ => false

end Digraph

end ClockedLogic
