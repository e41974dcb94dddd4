import ClockedLogic.Proofs.SingleEdges

/-!
Properties of states that outlast what happens in gates. Bringing a gate up to date is to make gates
clean and to let built in gates answer, in some order; clock edges also let them latch and commit.
What none of these steps takes away is still there at the end.
-/

namespace ClockedLogic

theorem State.clean_clean (state : State) (index : Nat) :
    (state.clean index).clean index = state.clean index :=
  clean_eq_self (state.isDirty_clean_self index)

theorem Gate.evalAll_cons (netlist : Netlist) (limit : Nat) (gate : Gate) (gates : List Gate)
    (state : State) : evalAll netlist limit (gate :: gates) state =
      evalAll netlist limit gates (gate.eval netlist limit state) := by
  rw [evalAll, eval]

/-- Whether a property of states is kept when gates are brought up to date. -/
structure Lasts (root : Gate) (netlist : Netlist) (inv : State → Prop) : Prop where
  clean : ∀ {state : State} {gate : Gate}, inv state → gate ∈ root.all →
    inv (state.clean gate.index)
  answer : ∀ {state : State} {site : Site} {spec : ChipSpec}, inv state →
    .builtIn site spec ∈ root.all → inv ((state.clean site.index).respond netlist site)

namespace Lasts

variable {root gate : Gate} {netlist : Netlist} {inv : State → Prop} {state : State}

theorem sweepUntil {sweep : State → State} {isDone : State → Bool}
    (hsweep : ∀ now, inv now → inv (sweep now)) (limit : Nat) (h : inv state) :
    inv (sweepUntil sweep isDone limit state) := by
  induction limit generalizing state with
  | zero => exact h
  | succ limit ih =>
    rw [ClockedLogic.sweepUntil]
    split
    · exact hsweep state h
    · exact ih (hsweep state h)

/-- What is kept by something that happens in each part of a gate is kept if it happens in all. -/
theorem foldl {site : Site} {internals : List Nat} {parts : List Gate}
    {step : Gate → State → State} (hgate : .composite site internals parts ∈ root.all)
    (hstep : ∀ part ∈ parts, part ∈ root.all → ∀ now, inv now → inv (step part now))
    (h : inv state) : inv (parts.foldl (fun now part => step part now) state) :=
  List.foldlRecOn parts _ h fun now hnow part hpart => hstep part hpart
    (Gate.part_mem_all hgate hpart) now hnow

variable (hinv : Lasts root netlist inv) (limit : Nat)
include hinv

theorem refresh_clean (hgate : gate ∈ root.all) (h : inv (state.clean gate.index)) :
    inv (gate.refresh netlist limit state) := by
  induction gate using Gate.inductionOn generalizing state with
  | builtIn site spec =>
    have hanswer := hinv.answer h hgate
    rw [Gate.index, Gate.site, State.clean_clean] at hanswer
    rw [Gate.refresh]
    exact hanswer
  | composite site internals parts ih =>
    rw [Gate.refresh]
    refine sweepUntil (fun now hnow => ?_) limit h
    rw [Gate.evalAll_eq_foldl]
    refine foldl hgate (fun part hpart hmem now hnow => ?_) hnow
    rw [Gate.eval]
    split
    · exact ih part hpart hmem (hinv.clean hnow hmem)
    · exact hnow

theorem refresh (hgate : gate ∈ root.all) (h : inv state) :
    inv (gate.refresh netlist limit state) :=
  hinv.refresh_clean limit hgate (hinv.clean h hgate)

theorem eval (hgate : gate ∈ root.all) (h : inv state) : inv (gate.eval netlist limit state) := by
  rw [Gate.eval]
  split
  · exact hinv.refresh limit hgate h
  · exact h

end Lasts

/-- Whether a property of states is kept by all that can happen in the gates of a circuit. -/
structure Endures (root : Gate) (netlist : Netlist) (inv : State → Prop) : Prop where
  clean : ∀ {state : State} {gate : Gate}, inv state → gate ∈ root.all →
    inv (state.clean gate.index)
  soil : ∀ {state : State} {gate : Gate}, inv state → gate ∈ root.all →
    inv (state.soil gate.index)
  answer : ∀ {state : State} {site : Site} {spec : ChipSpec}, inv state →
    .builtIn site spec ∈ root.all → inv ((state.clean site.index).respond netlist site)
  latch : ∀ {state : State} {site : Site} {spec : ChipSpec}, inv state →
    .builtIn site spec ∈ root.all → inv (state.latch site)
  commit : ∀ {state : State} {site : Site} {spec : ChipSpec}, inv state →
    .builtIn site spec ∈ root.all → inv (state.commit netlist site)

namespace Endures

variable {root gate : Gate} {netlist : Netlist} {inv : State → Prop} {state : State}
  (hinv : Endures root netlist inv) (limit : Nat)
include hinv

theorem lasts : Lasts root netlist inv := ⟨hinv.clean, hinv.answer⟩

theorem refresh (hgate : gate ∈ root.all) (h : inv state) :
    inv (gate.refresh netlist limit state) := hinv.lasts.refresh limit hgate h

theorem eval (hgate : gate ∈ root.all) (h : inv state) : inv (gate.eval netlist limit state) :=
  hinv.lasts.eval limit hgate h

theorem rise (hgate : gate ∈ root.all) (h : inv state) : inv (gate.rise netlist limit state) := by
  induction gate using Gate.inductionOn generalizing state with
  | builtIn site spec =>
    rw [Gate.rise]
    split
    · exact hinv.latch h hgate
    · exact h
  | composite site internals parts ih =>
    rw [Gate.rise]
    split
    · rw [Gate.tickAll_eq_foldl]
      exact Lasts.foldl hgate (fun part hpart hmem now hnow =>
        ih part hpart hmem (hinv.refresh limit hmem hnow)) h
    · exact h

theorem tick (hgate : gate ∈ root.all) (h : inv state) : inv (gate.tick netlist limit state) :=
  hinv.rise limit hgate (hinv.refresh limit hgate h)

theorem fall (hgate : gate ∈ root.all) (h : inv state) : inv (gate.fall netlist limit state) := by
  induction gate using Gate.inductionOn generalizing state with
  | builtIn site spec =>
    rw [Gate.fall]
    split
    · exact hinv.commit h hgate
    · exact h
  | composite site internals parts ih =>
    rw [Gate.fall]
    split
    · rw [Gate.tockAll_eq_foldl]
      exact hinv.soil (Lasts.foldl hgate (fun part hpart hmem now hnow =>
        hinv.refresh limit hmem (ih part hpart hmem hnow)) h) hgate
    · exact h

theorem tock (hgate : gate ∈ root.all) (h : inv state) : inv (gate.tock netlist limit state) :=
  hinv.refresh limit hgate (hinv.fall limit hgate h)

end Endures

end ClockedLogic
