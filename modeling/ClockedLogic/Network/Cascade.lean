import ClockedLogic.Fault
import ClockedLogic.Network.Netlist

/-!
A change of a node runs on along the links. Nodes that have changed wait on a stack; the newest
goes first, notifies its listeners in order, and every node that a link changes waits in turn.
What happens is kept as a list of events. Without cycles among the links a node changes a
bounded number of times, and the cascade ends.

A cascade among a given number of gates stops at the first node that a gate beyond them listens
to. Where there is no such node it runs as if any gate were there.
-/

namespace ClockedLogic

inductive Event where
  /-- A gate has to be evaluated again. -/
  | mark (gate : Nat)
  /-- A node has taken a value. -/
  | change (node : Nat) (value : Word)
deriving DecidableEq, Repr

structure Cascade where
  values : Array Word
  /-- Changed nodes whose listeners do not know yet, newest first. -/
  pending : List Nat
  /-- What has happened, newest first. -/
  events : List Event
deriving DecidableEq, Repr

namespace Cascade

def notify (value : Word) (cascade : Cascade) : Listener → Cascade
  | .gate index => { cascade with events := .mark index :: cascade.events }
  | .link link =>
    let old := cascade.values.getD link.target 0
    let new := link.targetBits.splice old (link.bits.extract value)
    if new = old then cascade
    else
      { values := cascade.values.setIfInBounds link.target new
        pending := link.target :: cascade.pending
        events := .change link.target new :: cascade.events }

def step (netlist : Netlist) (cascade : Cascade) : Cascade :=
  match cascade.pending with
  | [] => cascade
  | node :: rest =>
    (netlist.listenersOf node).foldl (notify (cascade.values.getD node 0))
      { cascade with pending := rest }

def run (netlist : Netlist) : Nat → Cascade → Cascade
  | 0, cascade => cascade
  | steps + 1, cascade =>
    if cascade.pending.isEmpty then cascade else run netlist steps (step netlist cascade)

/-- Goes on as `run` does, but stops with a fault before a node is taken that a gate beyond
the given number listens to. -/
def runWithin (netlist : Netlist) (gates : Nat) : Nat → Cascade → Except Fault Cascade
  | 0, cascade => .ok cascade
  | steps + 1, cascade =>
    match cascade.pending with
    | [] => .ok cascade
    | node :: _ =>
      match netlist.strayListener? gates node with
      | some gate => .error (.outOfBounds gate gates)
      | none => runWithin netlist gates steps (step netlist cascade)

/-- How many steps a cascade may take. Each bit of a node can change once along links without
cycles; the rest is room for cycles of links that come to rest. -/
def limit (netlist : Netlist) : Nat := (1 <<< 40) * (netlist.size + 1)

def finish (netlist : Netlist) (cascade : Cascade) : Cascade :=
  run netlist (limit netlist) cascade

def finishWithin (netlist : Netlist) (gates : Nat) (cascade : Cascade) : Except Fault Cascade :=
  runWithin netlist gates (limit netlist) cascade

def eventList (cascade : Cascade) : List Event := cascade.events.reverse

theorem runWithin_eq_ok_run {netlist : Netlist} {gates : Nat}
    (h : ∀ node, netlist.strayListener? gates node = none) (steps : Nat) (cascade : Cascade) :
    runWithin netlist gates steps cascade = .ok (run netlist steps cascade) := by
  fun_induction runWithin netlist gates steps cascade with
  | case1 => simp [run]
  | case2 steps cascade hp => simp [run, hp]
  | case3 steps cascade node rest hp gate hs => simp [h] at hs
  | case4 steps cascade node rest hp hs ih => simpa [run, hp] using ih

/-- Where all listening gates are within the number, no cascade stops early. -/
theorem finishWithin_eq_ok_finish {netlist : Netlist} {gates : Nat}
    (h : ∀ node, netlist.strayListener? gates node = none) (cascade : Cascade) :
    finishWithin netlist gates cascade = .ok (cascade.finish netlist) :=
  runWithin_eq_ok_run h _ cascade

end Cascade

end ClockedLogic
