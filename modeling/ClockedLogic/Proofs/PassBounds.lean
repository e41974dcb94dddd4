import ClockedLogic.Proofs.Passes

/-!
How many passes over the parts of a gate a circuit takes. Every operation is done once more in such
a way that it fails when a composite gate, at whatever depth, takes more passes than are allowed.
With three passes for each gate none ever fails: what is done is what is done without a bound.
-/

namespace ClockedLogic

namespace Gate

mutual

/-- A rising edge, unless a gate inside takes more passes over its parts than are allowed. -/
def riseWithin (netlist : Netlist) (passes : Nat) : Gate → State → Option State
  | builtIn site _, state => some (if site.component.isClocked then state.latch site else state)
  | composite site _ parts, state =>
    if site.component.isClocked then tickAllWithin netlist passes parts state else some state

def tickAllWithin (netlist : Netlist) (passes : Nat) : List Gate → State → Option State
  | [], state => some state
  | gate :: gates, state => do
    let fresh ← refreshWithin netlist passes gate state
    let risen ← riseWithin netlist passes gate fresh
    tickAllWithin netlist passes gates risen

end

def tickWithin (netlist : Netlist) (passes : Nat) (gate : Gate) (state : State) : Option State := do
  let fresh ← gate.refreshWithin netlist passes state
  gate.riseWithin netlist passes fresh

mutual

def fallWithin (netlist : Netlist) (passes : Nat) : Gate → State → Option State
  | builtIn site _, state =>
    some (if site.component.isClocked then state.commit netlist site else state)
  | composite site _ parts, state =>
    if site.component.isClocked then
      (tockAllWithin netlist passes parts state).map (State.soil · site.index)
    else some state

def tockAllWithin (netlist : Netlist) (passes : Nat) : List Gate → State → Option State
  | [], state => some state
  | gate :: gates, state => do
    let fallen ← fallWithin netlist passes gate state
    let fresh ← refreshWithin netlist passes gate fallen
    tockAllWithin netlist passes gates fresh

end

def tockWithin (netlist : Netlist) (passes : Nat) (gate : Gate) (state : State) : Option State := do
  let fallen ← gate.fallWithin netlist passes state
  gate.refreshWithin netlist passes fallen

end Gate

namespace Circuit

def updateWithin (circuit : Circuit) (f : State → Option State) : Option Circuit :=
  (f circuit.state).map fun state => { circuit with state }

def evalGateWithin (circuit : Circuit) (passes : Nat) (gate : Gate) : Option Circuit :=
  circuit.updateWithin (gate.evalWithin circuit.netlist passes)

def tickWithin (circuit : Circuit) (passes : Nat) : Option Circuit :=
  (circuit.note ⟨.trace, s!"tick {circuit.component.name}"⟩).updateWithin
    (circuit.root.tickWithin circuit.netlist passes)

def tockWithin (circuit : Circuit) (passes : Nat) : Option Circuit :=
  (circuit.note ⟨.trace, s!"tock {circuit.component.name}"⟩).updateWithin
    (circuit.root.tockWithin circuit.netlist passes)

/-- The circuit after a stimulus, unless a composite gate takes more passes over its parts than are
allowed. -/
def driveWithin (circuit : Circuit) (passes : Nat) : Stimulus → Option Circuit
  | .set name value => some (circuit.drive (.set name value))
  | .eval => circuit.evalGateWithin passes circuit.root
  | .tick => circuit.tickWithin passes
  | .tock => circuit.tockWithin passes
  | .pulse => do
    let risen ← circuit.tickWithin passes
    risen.tockWithin passes

def performWithin (circuit : Circuit) (passes : Nat) : Command → Option Circuit
  | .drive stimulus => circuit.driveWithin passes stimulus
  | .evalGate path =>
    match circuit.gate? path with
    | some gate => circuit.evalGateWithin passes gate
    | none => some circuit
  | .rise => circuit.updateWithin (circuit.root.riseWithin circuit.netlist passes)
  | .fall => circuit.updateWithin (circuit.root.fallWithin circuit.netlist passes)
  | .setChecked name value => some (circuit.perform (.setChecked name value))
  | .setNode node value => some (circuit.perform (.setNode node value))
  | .probe name => some (circuit.perform (.probe name))

end Circuit

theorem Gate.evalAllWithin_of_clean (netlist : Netlist) (passes : Nat) {gates : List Gate}
    {state : State} (hclean : ∀ gate ∈ gates, state.isDirty gate.index = false) :
    evalAllWithin netlist passes gates state = some state := by
  induction gates with
  | nil => rw [evalAllWithin]
  | cons gate gates ih =>
    rw [evalAllWithin_cons, evalWithin, hclean gate List.mem_cons_self,
      if_neg Bool.false_ne_true, Option.bind_some]
    exact ih fun other hother => hclean other (List.mem_cons_of_mem _ hother)

/-- A gate at rest takes one pass. -/
theorem State.AtRest.refreshWithin_eq {state : State} {gate : Gate} (hrest : state.AtRest gate)
    (netlist : Netlist) {passes limit : Nat} (hpasses : 1 ≤ passes) (hlimit : 1 ≤ limit) :
    gate.refreshWithin netlist passes state = some (gate.refresh netlist limit state) := by
  cases gate with
  | builtIn site spec => rw [Gate.refreshWithin, Gate.refresh]
  | composite site internals parts =>
    obtain ⟨hclean, hcalm⟩ := hrest _ (Gate.mem_all_self _)
    rw [Gate.refreshWithin, Gate.refresh]
    refine @sweepWithin_eq _ _ _ (fun _ now => now = state) 1 ?_ ?_ 0 _ _ _ ?_ (by omega) (by omega)
      (by omega)
    · rintro _ now - rfl
      rw [(evalAll_atRest netlist limit hcalm).1]
      exact ⟨Gate.evalAllWithin_of_clean netlist passes hcalm, rfl⟩
    · rintro now rfl
      simp only [Gate.allClean, List.all_eq_true, Bool.not_eq_true']
      exact hcalm
    · exact State.clean_eq_self hclean

variable {root owner gate : Gate} {draft : Draft} {level : Nat → Nat} {opened : Nat → Prop}
  {passes limit : Nat} {state : State}

/-- Whether a falling edge of a gate takes no composite gate inside more than so many passes,
wherever the gates around it are open or dirty. -/
def FallsWithin (root : Gate) (draft : Draft) (passes limit : Nat) (gate : Gate) : Prop :=
  ∀ (opened : Nat → Prop) (state : State), Sane root draft state → Honest root opened state →
    (∀ inner ∈ gate.all, ¬ opened inner.index) → Around root opened state gate →
    gate.fallWithin draft.netlist passes state = some (gate.fall draft.netlist limit state)

section

variable (hlimit : draft.sweepBound ≤ limit)
  (hwithin : ∀ gate ∈ root.all, SettlesWithin root draft passes limit gate)
include hlimit hwithin

section Rise

variable (hpasses : 1 ≤ passes)
include hpasses

theorem Sound.refreshWithin_eq (h : Sound root draft state) (hgate : gate ∈ root.all) :
    gate.refreshWithin draft.netlist passes state =
      some (gate.refresh draft.netlist limit state) := by
  cases hdirty : state.isDirty gate.index with
  | true =>
    exact hwithin gate hgate _ state h.sane h.honest (fun _ _ => id) (h.around hdirty)
  | false =>
    exact (h.atRest hgate hdirty).refreshWithin_eq draft.netlist hpasses
      (Nat.le_trans (Nat.le_add_left ..) hlimit)

theorem Sound.evalWithin_eq (h : Sound root draft state) (hgate : gate ∈ root.all) :
    gate.evalWithin draft.netlist passes state = some (gate.eval draft.netlist limit state) := by
  rw [Gate.evalWithin, Gate.eval]
  split
  · exact h.refreshWithin_eq hlimit hwithin hpasses hgate
  · rfl

variable (fabric : Fabric root draft)
include fabric

theorem Sound.tickAllWithin_eq (h : Sound root draft state) {gates : List Gate}
    (hgates : ∀ gate ∈ gates, gate ∈ root.all)
    (hrise : ∀ gate ∈ gates, ∀ now, Sound root draft now →
      gate.riseWithin draft.netlist passes now = some (gate.rise draft.netlist limit now)) :
    Gate.tickAllWithin draft.netlist passes gates state =
      some (Gate.tickAll draft.netlist limit gates state) := by
  obtain ⟨level, hlevel⟩ := fabric.levels
  induction gates generalizing state with
  | nil => rw [Gate.tickAllWithin, Gate.tickAll]
  | cons gate gates ih =>
    have hgate := hgates gate List.mem_cons_self
    have hfresh := (h.refresh fabric hlevel hlimit hgate).1.sound
    have hrisen := (hfresh.rise fabric hlimit hgate).1
    rw [Gate.tickAllWithin, h.refreshWithin_eq hlimit hwithin hpasses hgate, Gate.tickAll]
    simp only [Option.bind_eq_bind, Option.bind_some, hrise gate List.mem_cons_self _ hfresh]
    exact ih hrisen (fun other hother => hgates other (List.mem_cons_of_mem _ hother))
      fun other hother => hrise other (List.mem_cons_of_mem _ hother)

theorem Sound.riseWithin_eq (h : Sound root draft state) (hgate : gate ∈ root.all) :
    gate.riseWithin draft.netlist passes state = some (gate.rise draft.netlist limit state) := by
  induction gate using Gate.inductionOn generalizing state with
  | builtIn site spec => rw [Gate.riseWithin, Gate.rise]
  | composite site internals parts ih =>
    rw [Gate.riseWithin, Gate.rise]
    split
    · have hparts : ∀ part ∈ parts, part ∈ root.all := fun _ => Gate.part_mem_all hgate
      exact h.tickAllWithin_eq hlimit hwithin hpasses fabric hparts
        fun part hpart now hnow => ih part hpart hnow (hparts part hpart)
    · rfl

theorem Sound.tickWithin_eq (h : Sound root draft state) (hgate : gate ∈ root.all) :
    gate.tickWithin draft.netlist passes state = some (gate.tick draft.netlist limit state) := by
  obtain ⟨level, hlevel⟩ := fabric.levels
  have hfresh := (h.refresh fabric hlevel hlimit hgate).1.sound
  rw [Gate.tickWithin, h.refreshWithin_eq hlimit hwithin hpasses hgate, Gate.tick]
  exact hfresh.riseWithin_eq hlimit hwithin hpasses fabric hgate

end Rise

section Fall

variable (fabric : Fabric root draft)
include fabric

theorem Poised.tockAllWithin_eq (howner : owner ∈ root.all)
    (h : Poised root draft opened owner state) {gates : List Gate}
    (hparts : ∀ part ∈ gates, part ∈ owner.parts)
    (hopened : ∀ inner ∈ Gate.allOf gates, ¬ opened inner.index)
    (hfall : ∀ part ∈ gates, FallsWithin root draft passes limit part) :
    Gate.tockAllWithin draft.netlist passes gates state =
      some (Gate.tockAll draft.netlist limit gates state) := by
  obtain ⟨level, hlevel⟩ := fabric.levels
  induction gates generalizing state with
  | nil => rw [Gate.tockAllWithin, Gate.tockAll]
  | cons part gates ih =>
    have hpart := hparts part List.mem_cons_self
    have hmem := Gate.part_mem_all howner hpart
    have hnone : ∀ inner ∈ part.all, ¬ opened inner.index := fun inner hinner =>
      hopened inner (List.mem_append_left _ hinner)
    have haround := h.covered.around_part fabric howner hpart
    have hfallen : Poised root draft opened owner (part.fall draft.netlist limit state) := by
      obtain ⟨hfallen, -⟩ :=
        canFall fabric hlimit hmem opened state h.sane h.honest hnone haround
      exact ⟨hfallen.sane, hfallen.honest, h.covered.kept fabric howner
        (fun inner hinner => ⟨part, hpart, hinner⟩) hfallen.flags⟩
    have hfresh := hfallen.refresh fabric hlevel hlimit howner hpart hnone
    rw [Gate.tockAllWithin,
      hfall part List.mem_cons_self opened state h.sane h.honest hnone haround, Gate.tockAll]
    simp only [Option.bind_eq_bind, Option.bind_some, hwithin part hmem opened _ hfallen.sane
      hfallen.honest hnone (hfallen.covered.around_part fabric howner hpart)]
    exact ih hfresh (fun other hother => hparts other (List.mem_cons_of_mem _ hother))
      (fun inner hinner => hopened inner (List.mem_append_right _ hinner))
      fun other hother => hfall other (List.mem_cons_of_mem _ hother)

theorem fallsWithin (hgate : gate ∈ root.all) : FallsWithin root draft passes limit gate := by
  induction gate using Gate.inductionOn with
  | builtIn site spec =>
    intro opened state _ _ _ _
    rw [Gate.fallWithin, Gate.fall]
  | composite site internals parts ih =>
    intro opened state hsane hhonest hopened haround
    have hparts : ∀ part ∈ parts, part ∈ root.all := fun _ => Gate.part_mem_all hgate
    rw [Gate.fallWithin, Gate.fall]
    split
    · have hpoised : Poised root draft (fun index => opened index ∨ index = site.index)
          (.composite site internals parts) state :=
        ⟨hsane, fun inner hinner hnot => hhonest inner hinner fun h => hnot (.inl h),
          haround.covered⟩
      have hall : Gate.tockAllWithin draft.netlist passes parts state =
          some (Gate.tockAll draft.netlist limit parts state) :=
        hpoised.tockAllWithin_eq hlimit hwithin fabric hgate (fun _ hpart => hpart)
          (fabric.not_opened_inside hgate hopened)
          fun part hpart => ih part hpart (hparts part hpart)
      rw [hall, Option.map_some]
    · rfl

theorem Sound.fallWithin_eq (h : Sound root draft state) :
    root.fallWithin draft.netlist passes state = some (root.fall draft.netlist limit state) := by
  refine fallsWithin hlimit hwithin fabric root.mem_all_self _ state h.sane h.honest
    (fun _ _ => id) fun outer houter hinner => ?_
  exact .inl (fabric.distinct.antisymm houter hinner)

theorem Sound.tockWithin_eq (hpasses : 1 ≤ passes) (h : Sound root draft state) :
    root.tockWithin draft.netlist passes state = some (root.tock draft.netlist limit state) := by
  have hfallen := (h.fall fabric hlimit).1.sound
  rw [Gate.tockWithin, h.fallWithin_eq hlimit hwithin fabric, Gate.tock]
  exact hfallen.refreshWithin_eq hlimit hwithin hpasses root.mem_all_self

end Fall

end

namespace Circuit

variable {circuit : Circuit} {component : Component}

theorem updateWithin_eq {f : State → Option State} {g : State → State}
    (h : f circuit.state = some (g circuit.state)) :
    circuit.updateWithin f = some (circuit.update g) := by
  rw [updateWithin, h, Option.map_some, update]

namespace Ready

/-- Where parts are scheduled, no gate of a circuit takes more than three passes. -/
theorem settlesWithin (h : Ready root draft circuit)
    (hschedules : ∀ gate ∈ root.all, ∃ due, Schedule draft.netlist gate due)
    (hpasses : 3 ≤ passes) :
    ∀ gate ∈ root.all, SettlesWithin root draft passes circuit.sweepLimit gate := by
  obtain ⟨level, hlevel⟩ := h.fabric.levels
  have hroom : 3 ≤ circuit.sweepLimit := by
    unfold sweepLimit
    omega
  exact fun gate => ClockedLogic.settlesWithin h.fabric hlevel h.sweepBound_le hpasses hroom
    hschedules

variable (hschedules : ∀ gate ∈ root.all, ∃ due, Schedule draft.netlist gate due)
  (hpasses : 3 ≤ passes)
include hschedules hpasses

theorem evalGateWithin_eq (h : Ready root draft circuit) (hgate : gate ∈ root.all) :
    circuit.evalGateWithin passes gate = some (circuit.evalGate gate) := by
  apply updateWithin_eq
  rw [h.netlist_eq]
  exact h.sound.evalWithin_eq h.sweepBound_le (h.settlesWithin hschedules hpasses) (by omega) hgate

theorem tickWithin_eq (h : Ready root draft circuit) :
    circuit.tickWithin passes = some circuit.tick := by
  have hnoted := h.note ⟨.trace, s!"tick {circuit.component.name}"⟩
  apply updateWithin_eq
  rw [hnoted.netlist_eq, h.netlist_eq, h.root_eq]
  exact hnoted.sound.tickWithin_eq hnoted.sweepBound_le (hnoted.settlesWithin hschedules hpasses)
    (by omega) h.fabric root.mem_all_self

theorem tockWithin_eq (h : Ready root draft circuit) :
    circuit.tockWithin passes = some circuit.tock := by
  have hnoted := h.note ⟨.trace, s!"tock {circuit.component.name}"⟩
  apply updateWithin_eq
  rw [hnoted.netlist_eq, h.netlist_eq, h.root_eq]
  exact hnoted.sound.tockWithin_eq hnoted.sweepBound_le (hnoted.settlesWithin hschedules hpasses)
    h.fabric (by omega)

theorem driveWithin_eq (h : Ready root draft circuit) (stimulus : Stimulus) :
    circuit.driveWithin passes stimulus = some (circuit.drive stimulus) := by
  cases stimulus with
  | set name value => rfl
  | eval =>
    refine h.evalGateWithin_eq hschedules hpasses ?_
    rw [h.root_eq]
    exact root.mem_all_self
  | tick => exact h.tickWithin_eq hschedules hpasses
  | tock => exact h.tockWithin_eq hschedules hpasses
  | pulse =>
    rw [driveWithin, h.tickWithin_eq hschedules hpasses]
    exact h.tick.tockWithin_eq hschedules hpasses

/-- Every command takes three passes over the parts of each gate at most. -/
theorem performWithin_eq (h : Ready root draft circuit) (command : Command) :
    circuit.performWithin passes command = some (circuit.perform command) := by
  have hwithin := h.settlesWithin hschedules hpasses
  cases command with
  | drive stimulus => exact h.driveWithin_eq hschedules hpasses stimulus
  | setChecked name value => rfl
  | setNode node value => rfl
  | evalGate path =>
    cases hgate : circuit.gate? path with
    | some gate =>
      simp only [performWithin, perform, hgate]
      refine h.evalGateWithin_eq hschedules hpasses ?_
      rw [← h.root_eq]
      exact Gate.mem_all_iff_exists_path.mpr ⟨path, hgate⟩
    | none => simp only [performWithin, perform, hgate]
  | rise =>
    apply updateWithin_eq
    rw [h.netlist_eq, h.root_eq]
    exact h.sound.riseWithin_eq h.sweepBound_le hwithin (by omega) h.fabric root.mem_all_self
  | fall =>
    apply updateWithin_eq
    rw [h.netlist_eq, h.root_eq]
    exact h.sound.fallWithin_eq h.sweepBound_le hwithin h.fabric
  | probe name => rfl

end Ready

/-- No operation on the circuit of a standard component takes more than three passes over the parts
of any gate, and neither does making the circuit. -/
theorem settles_within_three (h : Standard component) :
    ∃ initial circuit, ofPlaced (component.placeRoot true) = .ok initial ∧
      initial.evalGateWithin 3 initial.root = some initial.eval ∧
      ofComponent component = .ok circuit ∧
      ∀ (commands : List Command) (command : Command),
        (circuit.performAll commands).performWithin 3 command =
          some ((circuit.performAll commands).perform command) := by
  obtain ⟨draft, initial, hmade⟩ := exists_made true h.wellWired
  obtain ⟨width, hdrafted⟩ := hmade.exists_drafted h.wellWired
  have hschedules : ∀ gate ∈ (component.placeRoot true).result.all,
      ∃ due, Schedule draft.netlist gate due :=
    fun gate hgate => hdrafted.exists_schedule h.sorted hgate
  have hroot : initial.root ∈ (component.placeRoot true).result.all := by
    rw [hmade.ready.root_eq]
    exact Gate.mem_all_self _
  refine ⟨initial, _, hmade.ofPlaced_eq,
    hmade.ready.evalGateWithin_eq hschedules (Nat.le_refl _) hroot, hmade.place_eq,
    fun commands command => ?_⟩
  exact (hmade.ready_place.performAll commands).performWithin_eq hschedules (Nat.le_refl _) command

/-- For example, a toggler that has been given a rising edge only. -/
theorem settles_within_three_toggler : ∃ component circuit,
    Blueprint.toggler.build = .ok component ∧ ofComponent component = .ok circuit ∧
    (circuit.performAll [.rise]).performWithin 3 .fall =
      some ((circuit.performAll [.rise]).perform .fall) := by
  obtain ⟨component, hbuild, hstandard⟩ := Blueprint.exists_toggler
  obtain ⟨-, circuit, -, -, hcircuit, hwithin⟩ := settles_within_three hstandard
  exact ⟨component, circuit, hbuild, hcircuit, hwithin [.rise] .fall⟩

end Circuit

end ClockedLogic
