import ClockedLogic.Component.Basic
import ClockedLogic.Digraph.Dot

/-!
The dependencies of a composite component as a drawing: labels for its vertices and the text
in the DOT language.
-/

namespace ClockedLogic

namespace Component

def pinLabel (component : Component) (role : PinRole) (index : Nat) : String :=
  match component.pinAt? role index with
  | some pin => pin.name
  | none => s!"{role.text}{index}"

def vertexLabel (component : Component) : Vertex → String
  | .root => component.name
  | .input index => s!"IN:{component.pinLabel .input index}"
  | .output index => s!"OUT:{component.pinLabel .output index}"
  | .internal index => component.pinLabel .internal index
  | .part position =>
    match component.parts.find? fun part => part.position == position with
    | some part => s!"{part.component.name}#{position}"
    | none => s!"part#{position}"

def dot? (component : Component) : Option String :=
  component.dependencies?.map fun graph => graph.dot component.vertexLabel

def noGraphMessage (component : Component) : String :=
  s!"{component.name} is built in, it has no dependency graph"

end Component

end ClockedLogic
