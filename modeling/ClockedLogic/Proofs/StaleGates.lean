import ClockedLogic.Proofs.HonestFlags
import ClockedLogic.Proofs.SingleEdges

/-!
Evaluating a circuit whose parts have been clocked one by one. An evaluation starts from the root,
which is dirty only if something outside has changed: the falling edge of a single part makes its
readers dirty and not the gates around them, so they stay as they are. Without such edges an
evaluation leaves nothing to do.
-/

namespace ClockedLogic

/-- Whether an operation gives no clocked part a falling edge of its own. -/
def Operation.SparesParts (root : Gate) : Operation → Prop
  | .command _ => True
  | .tickGate _ => True
  | .tockGate path => ∀ gate, root.descend? path = some gate →
      gate = root ∨ gate.component.isClocked = false

variable {root gate : Gate} {draft : Draft} {state : State}

theorem Gate.fall_eq_self (netlist : Netlist) (limit : Nat) (state : State)
    (h : gate.component.isClocked = false) : gate.fall netlist limit state = state := by
  have hsite : gate.site.component.isClocked = false := h
  cases gate with
  | builtIn site spec =>
    rw [fall, show site.component.isClocked = false from hsite, if_neg (by simp)]
  | composite site internals parts =>
    rw [fall, show site.component.isClocked = false from hsite, if_neg (by simp)]

/-- Bringing the root up to date leaves it clean. -/
theorem Steady.isDirty_refresh_root (h : Steady root draft state) (fabric : Fabric root draft)
    (limit : Nat) : (root.refresh draft.netlist limit state).isDirty root.index = false := by
  cases root with
  | builtIn site spec =>
    obtain ⟨kind, chip, rfl, hanswered⟩ := exists_answered fabric h.sane (Gate.mem_all_self _)
    rw [Bool.eq_false_iff]
    intro hdirty
    have hcleaned := hanswered.root_flag fabric hdirty
    rw [show (Gate.builtIn site (.primitive kind)).index = site.index from rfl,
      state.isDirty_clean_self] at hcleaned
    cases hcleaned
  | composite site internals parts =>
    have hclean : Stirred (.composite site internals parts) draft
        (· ∈ (Gate.composite site internals parts).all) state (state.clean site.index) :=
      stirred_clean fabric h (Gate.mem_all_self _)
        ⟨site, internals, parts, Gate.mem_all_self _, rfl⟩ (Gate.mem_all_self _)
    unfold Gate.refresh
    refine (Stirred.sweepUntil (fun now hnow => ?_) limit hclean.steady).root_clean fabric
      (Gate.mem_all_self _) rfl (state.isDirty_clean_self site.index)
    rw [Gate.evalAll_eq_foldl]
    refine Stirred.foldl (fun part hpart now hnow => hnow.eval fabric limit ?_) hnow
    exact Gate.mem_all_iff.mpr (.inr ⟨part, hpart, Gate.mem_all_self part⟩)

namespace Circuit

variable {circuit : Circuit}

namespace Running

theorem isDirty_eval (h : Running root draft circuit) :
    circuit.eval.isDirty root = false := by
  have hstate : circuit.eval.state =
      root.eval draft.netlist circuit.sweepLimit circuit.state := by
    simp only [Circuit.eval, Circuit.update, h.root_eq, h.netlist_eq]
  rw [isDirty, hstate, Gate.eval]
  split
  · exact h.steady.isDirty_refresh_root h.fabric _
  · rename_i hclean
    exact Bool.eq_false_iff.mpr hclean

theorem eval_eq_self (h : Running root draft circuit) (hclean : circuit.isDirty root = false) :
    circuit.eval = circuit := by
  have heval : circuit.root.eval circuit.netlist circuit.sweepLimit circuit.state =
      circuit.state := by
    rw [Gate.eval, if_neg]
    rw [h.root_eq]
    exact Bool.eq_false_iff.mp hclean
  rw [Circuit.eval, Circuit.update, heval]

end Running

namespace Ready

theorem tickGate (h : Ready root draft circuit) (hgate : gate ∈ circuit.root.all) :
    Ready root draft (circuit.tickGate gate) := by
  obtain ⟨level, hlevel⟩ := h.fabric.levels
  rw [h.root_eq] at hgate
  have hrefreshed := (h.sound.refresh h.fabric hlevel h.sweepBound_le hgate).1.sound
  apply h.update
  rw [h.netlist_eq]
  exact (hrefreshed.rise h.fabric h.sweepBound_le hgate).1

/-- A falling edge of a gate that takes no part in clock edges only brings it up to date. -/
theorem tockGate_of_not_clocked (h : Ready root draft circuit) (hgate : gate ∈ circuit.root.all)
    (hclocked : gate.component.isClocked = false) : Ready root draft (circuit.tockGate gate) := by
  obtain ⟨level, hlevel⟩ := h.fabric.levels
  rw [h.root_eq] at hgate
  apply h.update
  rw [h.netlist_eq, Gate.tock, Gate.fall_eq_self _ _ _ hclocked]
  exact (h.sound.refresh h.fabric hlevel h.sweepBound_le hgate).1.sound

/-- Operations that spare the parts keep a circuit ready for the next one. -/
theorem operate (h : Ready root draft circuit) {operation : Operation}
    (hspares : operation.SparesParts root) : Ready root draft (circuit.operate operation) := by
  cases operation with
  | command command => exact persists.perform h command
  | tickGate path =>
    rw [Circuit.operate]
    split
    · rename_i gate hgate
      exact h.tickGate (Gate.mem_all_iff_exists_path.mpr ⟨path, hgate⟩)
    · exact h
  | tockGate path =>
    rw [Circuit.operate]
    split
    · rename_i gate hgate
      have hdescend := hgate
      rw [gate?, h.root_eq] at hdescend
      rcases hspares gate hdescend with rfl | hclocked
      · have htock : circuit.tockGate circuit.root = circuit.fall.refreshed := rfl
        rw [h.root_eq] at htock
        rw [htock]
        exact h.fall.refreshed
      · exact h.tockGate_of_not_clocked (Gate.mem_all_iff_exists_path.mpr ⟨path, hgate⟩) hclocked
    · exact h

theorem operateAll (h : Ready root draft circuit) {operations : List Operation}
    (hspares : ∀ operation ∈ operations, operation.SparesParts root) :
    Ready root draft (circuit.operateAll operations) := by
  induction operations generalizing circuit with
  | nil => exact h
  | cons operation operations ih =>
    exact ih (h.operate (hspares operation List.mem_cons_self))
      fun other hother => hspares other (List.mem_cons_of_mem _ hother)

/-- A falling edge of a part of a circuit at rest does not reach the root, and leaves all gates
dirty that read what it has changed. -/
theorem stale_tockGate (h : Ready root draft circuit) (hrest : circuit.state.AtRest root)
    (hgate : gate ∈ circuit.root.all) (hne : gate ≠ root) :
    (circuit.tockGate gate).eval = circuit.tockGate gate ∧
      ∀ reader ∈ root.all, reader ∉ gate.all →
        (∃ node ∈ reader.inputs, (circuit.tockGate gate).value node ≠ circuit.value node) →
        (circuit.tockGate gate).isDirty reader = true := by
  have hmem := hgate
  rw [h.root_eq] at hmem
  have hstirred :
      Stirred root draft (· ∈ gate.all) circuit.state (circuit.tockGate gate).state := by
    rw [Circuit.tockGate, Circuit.update, h.netlist_eq]
    exact h.running.steady.tock h.fabric _ hmem
  have hroot : root ∉ gate.all := fun hinner => hne (h.fabric.distinct.antisymm hmem hinner)
  refine ⟨(h.running.tockGate hgate).eval_eq_self (Bool.eq_false_iff.mpr fun hdirty => ?_),
    fun reader hreader houtside hexists => ?_⟩
  · have hbefore := hstirred.root_flag hroot hdirty
    rw [(hrest root root.mem_all_self).1] at hbefore
    cases hbefore
  · obtain ⟨node, hnode, hchanged⟩ := hexists
    exact hstirred.heard reader hreader houtside node hnode hchanged

end Ready

/-- After any operations, single gates clocked among them, evaluating the circuit of a standard
component leaves the root clean and every clean built in gate settled. If no part has been given a
falling edge of its own, nothing is dirty any more. Otherwise gates can stay dirty: an evaluation
after a falling edge of a part does nothing, and every gate outside that reads a node with a new
value stays as it is. -/
theorem eval_after_operations {component : Component} (h : Standard component) :
    ∃ circuit, Circuit.ofComponent component = .ok circuit ∧ ∀ operations : List Operation,
      let before := circuit.operateAll operations
      let now := before.eval
      now.isDirty now.root = false ∧
      (∀ site spec, .builtIn site spec ∈ now.root.all →
        (∃ chip, now.state.chip? site.index = some chip) ∧
        (now.state.isDirty site.index = false → now.state.Settled site)) ∧
      ((∀ operation ∈ operations, operation.SparesParts circuit.root) →
        before.EndsIn .eval now ∧ now.dirtyGates = [] ∧
        (∀ site spec, .builtIn site spec ∈ now.root.all → now.state.Settled site) ∧
        ∀ path part, now.gate? path = some part → part ≠ now.root →
          let tocked := now.tockGate part
          tocked.eval = tocked ∧ ∀ reader ∈ now.root.all, reader ∉ part.all →
            (∃ node ∈ reader.inputs, tocked.value node ≠ now.value node) →
            tocked.isDirty reader = true) := by
  obtain ⟨draft, _, circuit, hstarted⟩ := exists_started h
  refine ⟨circuit, hstarted.ofComponent_eq, fun operations => ?_⟩
  have hrunning := (hstarted.ready.running.operateAll operations).eval
  refine ⟨?_, fun site spec hgate => ?_, fun hspares => ?_⟩
  · rw [hrunning.root_eq]
    exact (hstarted.ready.running.operateAll operations).isDirty_eval
  · rw [hrunning.root_eq] at hgate
    obtain ⟨kind, rfl, -⟩ := hrunning.fabric.builtIns site spec hgate
    obtain ⟨chip, hchip, -⟩ := hrunning.steady.sane.chips site kind hgate
    exact ⟨⟨chip, hchip⟩, hrunning.steady.settled hrunning.fabric hgate⟩
  · have hready := hstarted.ready.operateAll hspares
    have hrest := hready.rested_eval.atRest
    refine ⟨hready.ends .eval, hready.eval.dirtyGates_eq_nil hrest, fun site spec hgate => ?_,
      fun path part hpath hne => ?_⟩
    · rw [hready.eval.root_eq] at hgate
      exact (hrest _ hgate).2
    · have hstale := hready.eval.stale_tockGate hrest
        (Gate.mem_all_iff_exists_path.mpr ⟨path, hpath⟩) (by rwa [← hready.eval.root_eq])
      rwa [← hready.eval.root_eq] at hstale

/-- For example, a toggler whose flip-flop has been clocked on its own, and one whose flip-flop has
been given a rising edge and which has then been given a falling edge as a whole. -/
theorem eval_after_operations_toggler :
    ∃ component circuit, Blueprint.toggler.build = .ok component ∧
      Circuit.ofComponent component = .ok circuit ∧
      (circuit.operateAll [.tickGate [0], .tockGate []]).eval.dirtyGates = [] ∧
      let now := (circuit.operateAll [.tickGate [0], .tockGate [0]]).eval
      now.isDirty now.root = false := by
  obtain ⟨component, hbuild, hstandard⟩ := Blueprint.exists_toggler
  obtain ⟨circuit, hcircuit, hafter⟩ := eval_after_operations hstandard
  refine ⟨component, circuit, hbuild, hcircuit, ((hafter _).2.2 ?_).2.1, (hafter _).1⟩
  intro operation hoperation
  simp only [List.mem_cons, List.not_mem_nil, or_false] at hoperation
  rcases hoperation with rfl | rfl
  · trivial
  · intro gate hgate
    exact .inl (Option.some.inj hgate).symm

/-- The flip-flop of a toggler shows what it has committed, and the inverter that reads it is still
dirty after an evaluation, with a one on both sides. -/
theorem stale_inverter_toggler :
    ∃ component circuit, Blueprint.toggler.build = .ok component ∧
      Circuit.ofComponent component = .ok circuit ∧
      let now := (circuit.operateAll [.tickGate [0], .tockGate [0]]).eval
      now.dirtyGates = [1] ∧ now.get? "state" = some 1 ∧ now.get? "next" = some 1 := by
  have hrun : (Blueprint.toggler.build.toOption.bind fun component =>
      (Circuit.ofComponent component).toOption.map fun circuit =>
        let now := (circuit.operateAll [.tickGate [0], .tockGate [0]]).eval
        (now.dirtyGates, now.get? "state", now.get? "next")) = some ([1], some 1, some 1) := by
    decide +kernel
  cases hbuild : Blueprint.toggler.build with
  | error error =>
    rw [hbuild] at hrun
    cases hrun
  | ok component =>
    rw [hbuild] at hrun
    cases hcircuit : Circuit.ofComponent component with
    | error fault =>
      simp only [hcircuit, Except.toOption, Option.bind_some, Option.map_none] at hrun
      cases hrun
    | ok circuit =>
      simp only [hcircuit, Except.toOption, Option.bind_some, Option.map_some, Option.some.injEq,
        Prod.mk.injEq] at hrun
      exact ⟨component, circuit, rfl, hcircuit, hrun⟩

end Circuit

end ClockedLogic
