import ClockedLogic.Proofs.Commands

/-!
Edges of single gates. A part that is given a falling edge on its own gives new values to nodes
that other parts read. They become dirty, but the gates around them need not, so the state of the
circuit is not sound any more. What is left is steady: links hold, and every built in gate that is
not dirty is settled.
-/

namespace ClockedLogic

/-- What can be done to a circuit when single gates can be clocked as well. A path that leads to no
gate changes nothing. -/
inductive Operation where
  | command (command : Command)
  | tickGate (path : List Nat)
  | tockGate (path : List Nat)
deriving DecidableEq, Repr

namespace Circuit

def operate (circuit : Circuit) : Operation → Circuit
  | .command command => circuit.perform command
  | .tickGate path =>
    match circuit.gate? path with
    | some gate => circuit.tickGate gate
    | none => circuit
  | .tockGate path =>
    match circuit.gate? path with
    | some gate => circuit.tockGate gate
    | none => circuit

def operateAll (circuit : Circuit) (operations : List Operation) : Circuit :=
  operations.foldl operate circuit

end Circuit

def Gate.IsOwner (root : Gate) (index : Nat) : Prop :=
  ∃ site internals parts, .composite site internals parts ∈ root.all ∧ site.index = index

/-- What holds of the state of a circuit between any two operations: composite gates may be clean
while something is left to do inside, built in gates may not. -/
structure Steady (root : Gate) (draft : Draft) (state : State) : Prop where
  sane : Sane root draft state
  honest : Honest root root.IsOwner state

/-- What becomes of a steady state when something happens inside some gates. -/
structure Stirred (root : Gate) (draft : Draft) (inside : Gate → Prop) (before after : State) :
    Prop where
  steady : Steady root draft after
  flags : ∀ gate ∈ root.all, ¬ inside gate → before.isDirty gate.index = true →
    after.isDirty gate.index = true
  /-- A gate with a changed input is dirty. -/
  heard : ∀ gate ∈ root.all, ¬ inside gate → ∀ node ∈ gate.inputs,
    after.value node ≠ before.value node → after.isDirty gate.index = true
  root_flag : ¬ inside root → after.isDirty root.index = true →
    before.isDirty root.index = true

variable {root : Gate} {draft : Draft} {inside other : Gate → Prop} {before middle after state :
  State} {gate : Gate} {limit : Nat}

theorem Sound.steady (h : Sound root draft state) : Steady root draft state :=
  ⟨h.sane, fun gate hgate _ hclean => h.honest gate hgate id hclean⟩

/-- Nothing is around a built in gate but itself and composite gates. -/
theorem around_builtIn (root : Gate) (state : State) (site : Site) (spec : ChipSpec) :
    Around root root.IsOwner state (.builtIn site spec) := by
  intro outer houter hinner
  cases outer with
  | builtIn site' spec' =>
    rw [Gate.all, List.mem_singleton] at hinner
    exact .inl hinner.symm
  | composite site' internals parts => exact .inr (.inl ⟨site', internals, parts, houter, rfl⟩)

namespace Steady

theorem settled (h : Steady root draft state) (fabric : Fabric root draft) {site : Site}
    {spec : ChipSpec} (hgate : .builtIn site spec ∈ root.all)
    (hclean : state.isDirty site.index = false) : state.Settled site := by
  refine h.honest _ hgate (fun howner => ?_) hclean
  obtain ⟨site', internals, parts, howner, hindex⟩ := howner
  cases fabric.distinct.eq howner hgate hindex

end Steady

namespace Stirred

theorem refl (h : Steady root draft state) : Stirred root draft inside state state :=
  ⟨h, fun _ _ _ hdirty => hdirty, fun _ _ _ _ _ hne => absurd rfl hne, fun _ hdirty => hdirty⟩

theorem mono (h : Stirred root draft inside before after)
    (hsub : ∀ gate, inside gate → other gate) : Stirred root draft other before after where
  steady := h.steady
  flags gate hgate hother := h.flags gate hgate fun hinside => hother (hsub gate hinside)
  heard gate hgate hother := h.heard gate hgate fun hinside => hother (hsub gate hinside)
  root_flag hother := h.root_flag fun hinside => hother (hsub root hinside)

theorem trans (h : Stirred root draft inside before middle)
    (h' : Stirred root draft inside middle after) : Stirred root draft inside before after where
  steady := h'.steady
  flags gate hgate houtside hdirty :=
    h'.flags gate hgate houtside (h.flags gate hgate houtside hdirty)
  heard gate hgate houtside node hnode hchanged := by
    by_cases hsame : middle.value node = before.value node
    · exact h'.heard gate hgate houtside node hnode (by rwa [hsame])
    · exact h'.flags gate hgate houtside (h.heard gate hgate houtside node hnode hsame)
  root_flag houtside hdirty := h.root_flag houtside (h'.root_flag houtside hdirty)

/-- One thing happens in each gate of a list, in order. -/
theorem foldl {step : Gate → State → State} {gates : List Gate}
    (hstep : ∀ gate ∈ gates, ∀ now, Steady root draft now →
      Stirred root draft (· ∈ gate.all) now (step gate now))
    (h : Steady root draft state) : Stirred root draft (· ∈ Gate.allOf gates) state
      (gates.foldl (fun now gate => step gate now) state) := by
  induction gates generalizing state with
  | nil => exact .refl h
  | cons gate gates ih =>
    have hfirst := hstep gate List.mem_cons_self state h
    have hrest := ih (fun other hother => hstep other (List.mem_cons_of_mem _ hother)) hfirst.steady
    exact (hfirst.mono fun _ => List.mem_append_left _).trans
      (hrest.mono fun _ => List.mem_append_right _)

theorem sweepUntil {sweep : State → State} {isDone : State → Bool}
    (hsweep : ∀ now, Steady root draft now → Stirred root draft inside now (sweep now))
    (limit : Nat) (h : Steady root draft state) :
    Stirred root draft inside state (sweepUntil sweep isDone limit state) := by
  induction limit generalizing state with
  | zero => exact .refl h
  | succ limit ih =>
    have hfirst := hsweep state h
    rw [ClockedLogic.sweepUntil]
    split
    · exact hfirst
    · exact hfirst.trans (ih hfirst.steady)

/-- What happens inside the parts of a gate does not make the root dirty. -/
theorem root_clean {parts : List Gate} (fabric : Fabric root draft)
    (hgate : gate ∈ root.all) (hparts : parts = gate.parts)
    (h : Stirred root draft (· ∈ Gate.allOf parts) before after)
    (hclean : before.isDirty root.index = false) : after.isDirty root.index = false := by
  rw [Bool.eq_false_iff]
  intro hdirty
  refine absurd (h.root_flag (fun hmem => ?_) hdirty) (Bool.eq_false_iff.mp hclean)
  subst hparts
  obtain ⟨part, hpart, hroot⟩ := Gate.mem_allOf_iff.mp hmem
  exact (fabric.distinct.inside hgate).notMem_part hpart (Gate.mem_all_trans hgate hroot)

end Stirred

theorem stirred_clean (fabric : Fabric root draft) (h : Steady root draft state)
    (hgate : gate ∈ root.all) (howner : root.IsOwner gate.index) (hinside : inside gate) :
    Stirred root draft inside state (state.clean gate.index) where
  steady := by
    refine ⟨h.sane.clean _, fun inner hinner hnot => ?_⟩
    exact h.honest.clean gate.index inner hinner fun hor =>
      hor.elim hnot fun hindex => hnot (hindex ▸ howner)
  flags found hfound houtside hdirty := by
    rw [State.isDirty_clean, hdirty, Bool.true_and, decide_eq_true_eq]
    intro hindex
    rw [fabric.distinct.eq hfound hgate hindex] at houtside
    exact houtside hinside
  heard _ _ _ _ _ hne := absurd rfl hne
  root_flag _ hdirty := by
    rw [State.isDirty_clean, Bool.and_eq_true] at hdirty
    exact hdirty.1

theorem stirred_soil (fabric : Fabric root draft) (h : Steady root draft state)
    (hgate : gate ∈ root.all) (hinside : inside gate) :
    Stirred root draft inside state (state.soil gate.index) := by
  have hflags := @State.isDirty_soil state gate.index
    (by rw [h.sane.dirty_size]; exact fabric.index_lt hgate)
  refine ⟨⟨h.sane.soil _, fun inner hinner hnot hclean => ?_⟩, fun _ _ _ hdirty => ?_,
    fun _ _ _ _ _ hne => absurd rfl hne, fun houtside hdirty => ?_⟩
  · rw [hflags, Bool.or_eq_false_iff] at hclean
    have hcalm := h.honest inner hinner hnot hclean.1
    cases inner with
    | builtIn site spec => exact hcalm
    | composite site internals parts => exact absurd ⟨site, internals, parts, hinner, rfl⟩ hnot
  · rw [hflags, hdirty, Bool.true_or]
  · rw [hflags, Bool.or_eq_true, decide_eq_true_eq] at hdirty
    rcases hdirty with hdirty | hindex
    · exact hdirty
    · rw [fabric.distinct.eq root.mem_all_self hgate hindex] at houtside
      exact absurd hinside houtside

theorem stirred_answer (fabric : Fabric root draft) (h : Steady root draft state) {site : Site}
    {spec : ChipSpec} (hgate : .builtIn site spec ∈ root.all) :
    Stirred root draft (· ∈ (Gate.builtIn site spec).all) state
      ((state.clean site.index).respond draft.netlist site) := by
  obtain ⟨level, hlevel⟩ := fabric.levels
  obtain ⟨kind, chip, rfl, hanswered⟩ := exists_answered fabric h.sane hgate
  have hmoves := hanswered.moves fabric hlevel h.sane
  simp only [Gate.all, List.mem_singleton]
  exact ⟨⟨hmoves.sane, hanswered.honest fabric h.honest (around_builtIn root state site _)⟩,
    hmoves.flags, fun gate hgate _ => hanswered.written.heard gate hgate,
    fun _ => hmoves.root_flag⟩

theorem stirred_latch (fabric : Fabric root draft) (h : Steady root draft state) {site : Site}
    {spec : ChipSpec} (hgate : .builtIn site spec ∈ root.all) :
    Stirred root draft inside state (state.latch site) := by
  have hlatched := latched_latch fabric h.sane hgate
  refine ⟨⟨hlatched.sane h.sane, hlatched.honest h.sane fabric h.honest⟩, fun gate _ _ hdirty => ?_,
    fun _ _ _ node _ hne => ?_, fun _ hdirty => ?_⟩
  · rwa [hlatched.isDirty_eq]
  · rw [State.value, hlatched.signals] at hne
    exact absurd rfl hne
  · rwa [hlatched.isDirty_eq] at hdirty

theorem stirred_commit (fabric : Fabric root draft) (h : Steady root draft state) {site : Site}
    {spec : ChipSpec} (hgate : .builtIn site spec ∈ root.all) :
    Stirred root draft (· ∈ (Gate.builtIn site spec).all) state
      (state.commit draft.netlist site) := by
  obtain ⟨kind, chip, middle, rfl, hchip, hwritten, hcommit⟩ :=
    exists_committed fabric h.sane hgate
  have hfallen := fallen_write fabric h.honest hgate (around_builtIn root state site _) hchip
    hwritten
  have hflags := @State.isDirty_soil middle site.index
    (by rw [hwritten.sane.dirty_size]; exact fabric.index_lt hgate)
  rw [hcommit]
  refine ⟨⟨hwritten.sane.soil _, ?_⟩, fun gate _ _ hdirty => ?_,
    fun gate hmem _ node hnode hne => ?_, fun houtside hdirty => ?_⟩
  · have hsoiled : Honest root root.IsOwner
        (middle.soil (Gate.builtIn site (.primitive kind)).index) :=
      .soil fabric hwritten.sane hgate hfallen.honest (around_builtIn root middle site _)
    exact hsoiled
  · rw [hflags, hwritten.flags _ hdirty, Bool.true_or]
  · rw [hflags, hwritten.heard gate hmem node hnode hne, Bool.true_or]
  · rw [hflags, Bool.or_eq_true, decide_eq_true_eq] at hdirty
    rcases hdirty with hdirty | hindex
    · exact hwritten.root_flag
        (fun node hnode => fabric.entries_apart site _ node hgate hnode) hdirty
    · rw [fabric.distinct.eq root.mem_all_self hgate hindex] at houtside
      exact absurd (Gate.mem_all_self _) houtside

/-- Sweeping over gates is to bring one after the other up to date. -/
theorem Gate.evalAll_eq_foldl (netlist : Netlist) (limit : Nat) (gates : List Gate)
    (state : State) : evalAll netlist limit gates state =
      gates.foldl (fun now gate => gate.eval netlist limit now) state := by
  induction gates generalizing state with
  | nil => rw [evalAll, List.foldl_nil]
  | cons gate gates ih => rw [evalAll, List.foldl_cons, ih, eval]

theorem Gate.tickAll_eq_foldl (netlist : Netlist) (limit : Nat) (gates : List Gate)
    (state : State) : tickAll netlist limit gates state =
      gates.foldl (fun now gate => gate.tick netlist limit now) state := by
  induction gates generalizing state with
  | nil => rw [tickAll, List.foldl_nil]
  | cons gate gates ih => rw [tickAll, List.foldl_cons, ih, tick]

theorem Gate.tockAll_eq_foldl (netlist : Netlist) (limit : Nat) (gates : List Gate)
    (state : State) : tockAll netlist limit gates state =
      gates.foldl (fun now gate => gate.tock netlist limit now) state := by
  induction gates generalizing state with
  | nil => rw [tockAll, List.foldl_nil]
  | cons gate gates ih => rw [tockAll, List.foldl_cons, ih, tock]

namespace Stirred

theorem ite {condition : Prop} [Decidable condition] (h : Steady root draft state)
    (hafter : Stirred root draft inside state after) :
    Stirred root draft inside state (if condition then after else state) := by
  split
  · exact hafter
  · exact .refl h

end Stirred

namespace Steady

theorem refresh (h : Steady root draft state) (fabric : Fabric root draft) (limit : Nat)
    (hgate : gate ∈ root.all) :
    Stirred root draft (· ∈ gate.all) state (gate.refresh draft.netlist limit state) := by
  induction gate using Gate.inductionOn generalizing state with
  | builtIn site spec =>
    unfold Gate.refresh
    exact stirred_answer fabric h hgate
  | composite site internals parts ih =>
    unfold Gate.refresh
    have hclean : Stirred root draft (· ∈ (Gate.composite site internals parts).all) state
        (state.clean site.index) :=
      stirred_clean fabric h hgate ⟨site, internals, parts, hgate, rfl⟩ (Gate.mem_all_self _)
    refine hclean.trans (.sweepUntil (fun now hnow => ?_) limit hclean.steady)
    rw [Gate.evalAll_eq_foldl]
    refine (Stirred.foldl (fun part hpart now hnow => ?_) hnow).mono fun _ =>
      List.mem_append_left _
    exact .ite hnow (ih part hpart hnow (Gate.part_mem_all hgate hpart))

theorem eval (h : Steady root draft state) (fabric : Fabric root draft) (limit : Nat)
    (hgate : gate ∈ root.all) :
    Stirred root draft (· ∈ gate.all) state (gate.eval draft.netlist limit state) :=
  .ite h (h.refresh fabric limit hgate)

theorem rise (h : Steady root draft state) (fabric : Fabric root draft) (limit : Nat)
    (hgate : gate ∈ root.all) :
    Stirred root draft (· ∈ gate.all) state (gate.rise draft.netlist limit state) := by
  induction gate using Gate.inductionOn generalizing state with
  | builtIn site spec =>
    unfold Gate.rise
    exact .ite h (stirred_latch fabric h hgate)
  | composite site internals parts ih =>
    unfold Gate.rise
    refine .ite h ?_
    rw [Gate.tickAll_eq_foldl]
    refine (Stirred.foldl (fun part hpart now hnow => ?_) h).mono fun _ =>
      List.mem_append_left _
    have hpart' := Gate.part_mem_all hgate hpart
    have hrefreshed := hnow.refresh fabric limit hpart'
    exact hrefreshed.trans (ih part hpart hrefreshed.steady hpart')

theorem tick (h : Steady root draft state) (fabric : Fabric root draft) (limit : Nat)
    (hgate : gate ∈ root.all) :
    Stirred root draft (· ∈ gate.all) state (gate.tick draft.netlist limit state) :=
  (h.refresh fabric limit hgate).trans ((h.refresh fabric limit hgate).steady.rise fabric limit
    hgate)

theorem fall (h : Steady root draft state) (fabric : Fabric root draft) (limit : Nat)
    (hgate : gate ∈ root.all) :
    Stirred root draft (· ∈ gate.all) state (gate.fall draft.netlist limit state) := by
  induction gate using Gate.inductionOn generalizing state with
  | builtIn site spec =>
    unfold Gate.fall
    exact .ite h (stirred_commit fabric h hgate)
  | composite site internals parts ih =>
    unfold Gate.fall
    refine .ite h ?_
    rw [Gate.tockAll_eq_foldl]
    have hall : Stirred root draft (· ∈ (Gate.composite site internals parts).all) state
        (parts.foldl (fun now part => part.tock draft.netlist limit now) state) := by
      refine (Stirred.foldl (fun part hpart now hnow => ?_) h).mono fun _ =>
        List.mem_append_left _
      have hpart' := Gate.part_mem_all hgate hpart
      have hfallen := ih part hpart hnow hpart'
      exact hfallen.trans (hfallen.steady.refresh fabric limit hpart')
    exact hall.trans (stirred_soil fabric hall.steady hgate (Gate.mem_all_self _))

theorem tock (h : Steady root draft state) (fabric : Fabric root draft) (limit : Nat)
    (hgate : gate ∈ root.all) :
    Stirred root draft (· ∈ gate.all) state (gate.tock draft.netlist limit state) :=
  (h.fall fabric limit hgate).trans ((h.fall fabric limit hgate).steady.refresh fabric limit
    hgate)

end Steady

namespace Circuit

structure Running (root : Gate) (draft : Draft) (circuit : Circuit) : Prop where
  root_eq : circuit.root = root
  netlist_eq : circuit.netlist = draft.netlist
  fabric : Fabric root draft
  steady : Steady root draft circuit.state

variable {circuit : Circuit}

theorem Ready.running (h : Ready root draft circuit) : Running root draft circuit :=
  ⟨h.root_eq, h.netlist_eq, h.fabric, h.sound.steady⟩

namespace Running

theorem update (h : Running root draft circuit) {f : State → State}
    (hsteady : Steady root draft (f circuit.state)) : Running root draft (circuit.update f) :=
  ⟨h.root_eq, h.netlist_eq, h.fabric, hsteady⟩

theorem stir (h : Running root draft circuit) (step : Netlist → Nat → Gate → State → State)
    (hstep : ∀ {state : State} {gate : Gate}, Steady root draft state → Fabric root draft →
      ∀ limit, gate ∈ root.all →
        Stirred root draft (· ∈ gate.all) state (step draft.netlist limit gate state))
    (hgate : gate ∈ circuit.root.all) :
    Running root draft (circuit.update (step circuit.netlist circuit.sweepLimit gate)) := by
  rw [h.root_eq] at hgate
  rw [h.netlist_eq]
  exact h.update (hstep h.steady h.fabric _ hgate).steady

theorem store (h : Running root draft circuit) {node : Nat} (hnode : node ∈ circuit.root.inputs)
    (value : Word) : Running root draft (circuit.store node value) := by
  apply h.update
  rw [h.netlist_eq]
  rw [h.root_eq] at hnode
  obtain ⟨hsane, hhonest⟩ := h.steady.sane.put_input h.fabric h.steady.honest hnode value
  exact ⟨hsane, hhonest⟩

theorem persists : Persists (Running root draft) where
  store h hnode value := h.store hnode value
  relog h _ _ := h.update ⟨h.steady.sane.congr rfl rfl rfl, h.steady.honest.congr rfl rfl rfl⟩
  evalGate h hgate := h.stir Gate.eval Steady.eval hgate
  refreshed h := h.stir Gate.refresh Steady.refresh (Gate.mem_all_self _)
  rise h := h.stir Gate.rise Steady.rise (Gate.mem_all_self _)
  fall h := h.stir Gate.fall Steady.fall (Gate.mem_all_self _)

theorem tickGate (h : Running root draft circuit) (hgate : gate ∈ circuit.root.all) :
    Running root draft (circuit.tickGate gate) := h.stir Gate.tick Steady.tick hgate

theorem tockGate (h : Running root draft circuit) (hgate : gate ∈ circuit.root.all) :
    Running root draft (circuit.tockGate gate) := h.stir Gate.tock Steady.tock hgate

theorem operate (h : Running root draft circuit) (operation : Operation) :
    Running root draft (circuit.operate operation) := by
  cases operation with
  | command command => exact persists.perform h command
  | tickGate path =>
    rw [Circuit.operate]
    split
    · rename_i gate hgate
      exact h.tickGate (Gate.mem_all_iff_exists_path.mpr ⟨path, hgate⟩)
    · exact h
  | tockGate path =>
    rw [Circuit.operate]
    split
    · rename_i gate hgate
      exact h.tockGate (Gate.mem_all_iff_exists_path.mpr ⟨path, hgate⟩)
    · exact h

theorem operateAll (h : Running root draft circuit) (operations : List Operation) :
    Running root draft (circuit.operateAll operations) := by
  induction operations generalizing circuit with
  | nil => exact h
  | cons operation operations ih => exact ih (h.operate operation)

theorem eval (h : Running root draft circuit) : Running root draft circuit.eval :=
  persists.evalGate h (Gate.mem_all_self _)

end Running

end Circuit

end ClockedLogic
