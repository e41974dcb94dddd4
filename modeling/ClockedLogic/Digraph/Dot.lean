import ClockedLogic.Digraph.Basic
import ClockedLogic.Text.Quoted

/-!
A graph in the DOT language, which graph drawing programs read: one line a node with its
position and its quoted label, then one line an edge. No label can end its line or its quotes.
-/

namespace ClockedLogic

namespace Digraph

variable {α : Type}

def dotNode (position : Nat) (label : List Char) : List Char :=
  "    ".toList ++ Nat.toDigits 10 position ++ " [ label = \"".toList ++
    Text.protect (Text.quote label) ++ "\" ]\n".toList

def dotEdge (source target : Nat) : List Char :=
  "    ".toList ++ Nat.toDigits 10 source ++ " -> ".toList ++ Nat.toDigits 10 target ++
    " [ ]\n".toList

def dotChars (graph : Digraph α) (label : α → String) : List Char :=
  "digraph \x7b\n".toList ++
    (graph.nodes.zipIdx.flatMap fun (node, position) => dotNode position (label node).toList) ++
    (graph.edgePositions.flatMap fun (source, target) => dotEdge source target) ++
    "\x7d\n".toList

def dot (graph : Digraph α) (label : α → String) : String :=
  String.ofList (graph.dotChars label)

end Digraph

end ClockedLogic
