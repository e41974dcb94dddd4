import ClockedLogic.Component.Basic

/-!
A gate is an instance of a component in a circuit. It knows the nodes at its pins; a composite
gate also knows the nodes of its internal pins and the gates that are its parts. Parts have
smaller indices than their owner, so the gates in the order of their indices are the parts of
each gate before the gate itself.
-/

namespace ClockedLogic

structure Site where
  index : Nat
  component : Component
  inputs : List Nat
  outputs : List Nat

inductive Gate where
  | builtIn (site : Site) (chip : ChipSpec)
  /-- A gate with internal nodes and with parts in the order of evaluation. -/
  | composite (site : Site) (internals : List Nat) (parts : List Gate)

namespace Gate

/-- A property of all built in gates that a composite one takes over from its parts holds of
all gates. -/
@[elab_as_elim]
theorem inductionOn {motive : Gate → Prop} (gate : Gate)
    (builtIn : ∀ site chip, motive (.builtIn site chip))
    (composite : ∀ site internals parts,
      (∀ part ∈ parts, motive part) → motive (.composite site internals parts)) :
    motive gate := by
  refine @Gate.rec motive (fun parts => ∀ part ∈ parts, motive part) builtIn composite
    ?_ ?_ gate
  · intro part h
    cases h
  · intro part parts ihead itail other h
    rcases List.mem_cons.mp h with rfl | h
    · exact ihead
    · exact itail other h

def site : Gate → Site
  | builtIn site _ => site
  | composite site _ _ => site

def index (gate : Gate) : Nat := gate.site.index

def component (gate : Gate) : Component := gate.site.component

def inputs (gate : Gate) : List Nat := gate.site.inputs

def outputs (gate : Gate) : List Nat := gate.site.outputs

def internals : Gate → List Nat
  | builtIn _ _ => []
  | composite _ internals _ => internals

def parts : Gate → List Gate
  | builtIn _ _ => []
  | composite _ _ parts => parts

def nodesOf (gate : Gate) : PinRole → List Nat
  | .input => gate.inputs
  | .output => gate.outputs
  | .internal => gate.internals

def nodeAt? (gate : Gate) (role : PinRole) (index : Nat) : Option Nat :=
  (gate.nodesOf role)[index]?

def node? (gate : Gate) (name : String) : Option Nat := do
  let pin ← gate.component.pin? name
  gate.nodeAt? pin.role pin.index

mutual

/-- The gate and all gates inside it, each after its parts. -/
def all : Gate → List Gate
  | builtIn site chip => [builtIn site chip]
  | composite site internals parts => allOf parts ++ [composite site internals parts]

def allOf : List Gate → List Gate
  | [] => []
  | gate :: gates => all gate ++ allOf gates

end

theorem allOf_eq_flatMap (gates : List Gate) : allOf gates = gates.flatMap all := by
  induction gates with
  | nil => rfl
  | cons gate gates ih => rw [allOf, ih, List.flatMap_cons]

theorem getLast?_all (gate : Gate) : gate.all.getLast? = some gate := by
  cases gate with
  | builtIn site chip => rfl
  | composite site internals parts => simp [all]

def descend? : List Nat → Gate → Option Gate
  | [], gate => some gate
  | position :: path, gate =>
    match gate.parts[position]? with
    | some part => descend? path part
    | none => none

end Gate

end ClockedLogic
