import ClockedLogic.Blueprint.Joint
import ClockedLogic.Digraph.Search
import ClockedLogic.Record

/-!
Building a component from a blueprint. The parts of a composite component are sorted so that
each comes after the parts it reads through inputs that are not clocked; a loop of such reads
is refused. A clocked component infers further clocked pins: an input that no output depends
on, and an output that depends on no input.
-/

namespace ClockedLogic

namespace Blueprint

/-- The dependencies before any wire is looked at: the root comes before every input and every
part, and the outputs are known. -/
def bareGraph (inputs parts outputs : Nat) : Digraph Vertex :=
  let rooted := (Digraph.empty.addNode Vertex.root).addEdges
    ((List.range inputs).map (fun index => (.root, .input index)) ++
      (List.range parts).map (fun position => (.root, .part position)))
  ((List.range outputs).map Vertex.output).foldl Digraph.addNode rooted

def dependencies (blueprint : Blueprint) (joints : List Joint) : Digraph Vertex :=
  (bareGraph blueprint.inputs.length blueprint.parts.length blueprint.outputs.length).addEdges
    (joints.filterMap (·.edge))

def loopLabel (blueprint : Blueprint) (internals : List Pin) : Vertex → String
  | .part position =>
    match blueprint.parts[position]? with
    | some (component, _) => s!"{component.name}#{position}"
    | none => s!"part#{position}"
  | .internal index =>
    match internals[index]? with
    | some pin => pin.name
    | none => s!"internal#{index}"
  | .root => "Root"
  | .input index => s!"Input({index})"
  | .output index => s!"Output({index})"

def part? (blueprint : Blueprint) (joints : List Joint) (position : Nat) :
    Option (Part Component) :=
  (blueprint.parts[position]?).map fun (component, _) =>
    { component, position
      wires := (joints.filter fun joint => joint.part == position).map (·.wire) }

def sortedParts (blueprint : Blueprint) (joints : List Joint) (order : List Vertex) :
    List (Part Component) :=
  order.filterMap fun
    | .part position => blueprint.part? joints position
    | _ => none

/-- The interface of a component whose clocked pins are those declared and those inferred. -/
def interface (blueprint : Blueprint) (isClocked : Bool) (isInferred : Pin → Bool) : Interface :=
  let isClockedPin := fun pin => blueprint.isDeclaredClocked pin || isInferred pin
  { name := blueprint.name
    inputs := blueprint.inputPins
    outputs := blueprint.outputPins
    clockedInputs := blueprint.inputPins.map isClockedPin
    clockedOutputs := blueprint.outputPins.map isClockedPin
    isClocked := isClocked }

/-- For an input whether no path leads from it to an output, for an output whether none leads
to it from an input. -/
def isCutOff (blueprint : Blueprint) (graph : Digraph Vertex) (pin : Pin) : Bool :=
  match pin.role with
  | .input => !blueprint.outputPins.any fun output => graph.reaches pin.vertex output.vertex
  | .output => !blueprint.inputPins.any fun input => graph.reaches input.vertex pin.vertex
  | .internal => false

/-- Builds a component with a chip. Its clocked pins are those declared. -/
def buildBuiltIn (blueprint : Blueprint) (chip : ChipSpec) : Component :=
  let isClocked := blueprint.declaredPins.any blueprint.isDeclaredClocked
  .builtIn (blueprint.interface isClocked fun _ => false) chip

def assemble (blueprint : Blueprint) (internals : List Pin) (joints : List Joint) :
    Except DesignError Component :=
  let graph := blueprint.dependencies joints
  let traversal := graph.traverse .root
  match traversal.circle with
  | some vertex =>
    .error (.combinationalCycle blueprint.name (blueprint.loopLabel internals vertex))
  | none =>
    let parts := blueprint.sortedParts joints traversal.order
    let isClocked :=
      blueprint.declaredPins.any blueprint.isDeclaredClocked ||
        parts.any fun part => part.component.isClocked
    let isInferred := fun pin => isClocked && blueprint.isCutOff graph pin
    .ok (.composite (blueprint.interface isClocked isInferred) internals parts graph)

def buildComposite (blueprint : Blueprint) : Except DesignError Component := do
  let wires ← openWires blueprint.name blueprint.wireTexts
  let internals ← findInternals blueprint.name blueprint.declaredPins [] wires
  let joints ← joinWires blueprint.name (blueprint.declaredPins ++ internals) [] wires
  blueprint.assemble internals joints

def build (blueprint : Blueprint) : Except DesignError Component := do
  blueprint.checkDeclarations
  match blueprint.chip with
  | some chip =>
    if blueprint.parts.isEmpty then .ok (blueprint.buildBuiltIn chip)
    else .error (.partsInBuiltIn blueprint.name)
  | none => blueprint.buildComposite

end Blueprint

namespace Component

def drivesOutput (parts : List (Part Component)) (output : Pin) : Bool :=
  parts.any fun part => part.wires.any fun wire =>
    decide (wire.partRole = .output ∧ wire.owner = .pin .output output.index)

def orderText (parts : List (Part Component)) : String :=
  ", ".intercalate (parts.map fun part => s!"{part.component.name}#{part.position}")

/-- What building the component has to tell: outputs without a driver, and the order of
evaluation. -/
def buildRecords (component : Component) : List Record :=
  match component with
  | builtIn _ _ => [⟨.debug, s!"Built {component.text}"⟩]
  | composite interface _ parts _ =>
    ((interface.outputs.filter fun output => !drivesOutput parts output).map fun output =>
      ⟨.warn, s!"{interface.name}: output `{output.name}` is not driven by any part"⟩) ++
    [⟨.debug, s!"{interface.name}: evaluation order [{orderText parts}]"⟩]

end Component

end ClockedLogic
