import ClockedLogic.Circuit.Pins
import ClockedLogic.Proofs.Falling
import ClockedLogic.Proofs.Starting

/-!
What can be done to a circuit from outside. Every circuit that is made from a well wired component
starts sound, and every command keeps it so; commands that are refused leave it as it is.
-/

namespace ClockedLogic

/-- What a user does to drive a circuit. -/
inductive Stimulus where
  | set (name : String) (value : Word)
  | eval
  | tick
  | tock
  | pulse
deriving DecidableEq, Repr

def Stimulus.settles : Stimulus → Bool
  | set _ _ => false
  | eval | tick | tock | pulse => true

/-- All that can be done to a circuit without clocking single gates. -/
inductive Command where
  | drive (stimulus : Stimulus)
  | setChecked (name : String) (value : Word)
  | setNode (node : Nat) (value : Word)
  /-- Brings the gate at a path up to date. -/
  | evalGate (path : List Nat)
  | rise
  | fall
  | probe (name : String)
deriving DecidableEq, Repr

namespace Circuit

/-- The circuit after an edit, which is the circuit before if the edit is refused. -/
def edited (circuit : Circuit) (edit : Except DesignError Circuit) : Circuit :=
  match edit with
  | .ok changed => changed
  | .error _ => circuit

/-- The circuit brought up to date, dirty or not. -/
def refreshed (circuit : Circuit) : Circuit :=
  circuit.update (circuit.root.refresh circuit.netlist circuit.sweepLimit)

def drive (circuit : Circuit) : Stimulus → Circuit
  | .set name value => circuit.edited (circuit.set name value)
  | .eval => circuit.eval
  | .tick => circuit.tick
  | .tock => circuit.tock
  | .pulse => circuit.pulse

def driveAll (circuit : Circuit) (stimuli : List Stimulus) : Circuit := stimuli.foldl drive circuit

def perform (circuit : Circuit) : Command → Circuit
  | .drive stimulus => circuit.drive stimulus
  | .setChecked name value => circuit.edited (circuit.setChecked name value)
  | .setNode node value => circuit.edited ((circuit.setNode node value).map Prod.snd)
  | .evalGate path =>
    match circuit.gate? path with
    | some gate => circuit.evalGate gate
    | none => circuit
  | .rise => circuit.rise
  | .fall => circuit.fall
  | .probe name => circuit.edited (circuit.probe name)

def performAll (circuit : Circuit) (commands : List Command) : Circuit :=
  commands.foldl perform circuit

/-- What holds of a circuit between any two commands. -/
structure Ready (root : Gate) (draft : Draft) (circuit : Circuit) : Prop where
  root_eq : circuit.root = root
  netlist_eq : circuit.netlist = draft.netlist
  fabric : Fabric root draft
  sound : Sound root draft circuit.state

end Circuit

theorem Gate.mem_all_iff_exists_path {gate inner : Gate} :
    inner ∈ gate.all ↔ ∃ path, gate.descend? path = some inner := by
  constructor
  · intro h
    induction gate using Gate.inductionOn with
    | builtIn site spec =>
      rw [all, List.mem_singleton] at h
      exact ⟨[], by rw [descend?, h]⟩
    | composite site internals parts ih =>
      rcases mem_all_iff.mp h with rfl | ⟨part, hpart, hinner⟩
      · exact ⟨[], rfl⟩
      · obtain ⟨path, hpath⟩ := ih part hpart hinner
        obtain ⟨position, hposition⟩ := List.mem_iff_getElem?.mp hpart
        refine ⟨position :: path, ?_⟩
        simp only [descend?, hposition]
        exact hpath
  · intro hexists
    obtain ⟨path, hpath⟩ := hexists
    induction path generalizing gate with
    | nil =>
      rw [descend?, Option.some.injEq] at hpath
      rw [hpath]
      exact inner.mem_all_self
    | cons position path ih =>
      unfold descend? at hpath
      split at hpath
      · rename_i part hpart
        exact mem_all_iff.mpr (.inr ⟨part, List.mem_of_getElem? hpart, ih hpath⟩)
      · cases hpath

namespace Circuit

variable {root : Gate} {draft : Draft} {circuit changed : Circuit} {sharing : Bool}
  {component : Component}

theorem inputNode_mem {name : String} {node : Nat} (h : circuit.inputNode name = .ok node) :
    node ∈ circuit.root.inputs := by
  unfold inputNode at h
  split at h
  · cases h
  · split at h
    · split at h
      · rename_i found hfound
        cases h
        exact List.mem_of_getElem? hfound
      · cases h
    · cases h

theorem exists_of_set_eq_ok {name : String} {value : Word}
    (h : circuit.set name value = .ok changed) :
    ∃ node ∈ circuit.root.inputs, changed = circuit.store node value := by
  unfold Circuit.set at h
  cases hnode : circuit.inputNode name with
  | error error =>
    rw [hnode] at h
    cases h
  | ok node =>
    rw [hnode] at h
    cases h
    exact ⟨node, inputNode_mem hnode, rfl⟩

theorem setChecked_eq {name : String} {node : Nat} (hnode : circuit.inputNode name = .ok node)
    (value : Word) : circuit.setChecked name value =
      if Word.fits (circuit.netlist.width node) value = true then .ok (circuit.store node value)
      else .error (.valueOutOfRange name value (circuit.netlist.width node)) := by
  rw [Circuit.setChecked, hnode]
  rfl

theorem exists_of_setChecked_eq_ok {name : String} {value : Word}
    (h : circuit.setChecked name value = .ok changed) :
    ∃ node, circuit.inputNode name = .ok node ∧
      Word.fits (circuit.netlist.width node) value = true ∧ changed = circuit.store node value := by
  cases hnode : circuit.inputNode name with
  | error error =>
    rw [Circuit.setChecked, hnode] at h
    cases h
  | ok node =>
    rw [setChecked_eq hnode] at h
    split at h
    · rename_i hfits
      exact ⟨node, rfl, hfits, (Except.ok.inj h).symm⟩
    · cases h

theorem exists_setChecked_eq_error_iff {name : String} {value : Word} :
    (∃ error, circuit.setChecked name value = .error error) ↔
      ∀ node, circuit.inputNode name = .ok node →
        Word.fits (circuit.netlist.width node) value = false := by
  cases hnode : circuit.inputNode name with
  | error error =>
    rw [Circuit.setChecked, hnode]
    exact ⟨fun _ _ hok => (nomatch hok), fun _ => ⟨error, rfl⟩⟩
  | ok node =>
    rw [setChecked_eq hnode]
    by_cases hfits : Word.fits (circuit.netlist.width node) value = true <;> simp [hfits]

/-- Whether a property of a circuit is kept by all that a command can do. -/
structure Persists (inv : Circuit → Prop) : Prop where
  store : ∀ {circuit : Circuit} {node : Nat}, inv circuit → node ∈ circuit.root.inputs →
    ∀ value, inv (circuit.store node value)
  /-- It does not matter what has been logged and what is probed. -/
  relog : ∀ {circuit : Circuit}, inv circuit → ∀ probes log, inv (circuit.update fun state =>
    { state with signals := { state.signals with probes, log } })
  evalGate : ∀ {circuit : Circuit} {gate : Gate}, inv circuit → gate ∈ circuit.root.all →
    inv (circuit.evalGate gate)
  refreshed : ∀ {circuit : Circuit}, inv circuit → inv circuit.refreshed
  rise : ∀ {circuit : Circuit}, inv circuit → inv circuit.rise
  fall : ∀ {circuit : Circuit}, inv circuit → inv circuit.fall

namespace Persists

variable {inv : Circuit → Prop}

theorem note (hinv : Persists inv) (h : inv circuit) (record : Record) :
    inv (circuit.note record) :=
  hinv.relog h circuit.state.signals.probes (record :: circuit.state.signals.log)

theorem edited (h : inv circuit) {edit : Except DesignError Circuit}
    (hedit : ∀ changed, edit = .ok changed → inv changed) : inv (circuit.edited edit) := by
  cases edit with
  | ok changed => exact hedit changed rfl
  | error error => exact h

theorem set (hinv : Persists inv) (h : inv circuit) {name : String} {value : Word}
    (hset : circuit.set name value = .ok changed) : inv changed := by
  obtain ⟨node, hnode, rfl⟩ := exists_of_set_eq_ok hset
  exact hinv.store h hnode value

theorem setChecked (hinv : Persists inv) (h : inv circuit) {name : String} {value : Word}
    (hset : circuit.setChecked name value = .ok changed) : inv changed := by
  obtain ⟨node, hnode, -, rfl⟩ := exists_of_setChecked_eq_ok hset
  exact hinv.store h (inputNode_mem hnode) value

theorem setNode (hinv : Persists inv) (h : inv circuit) {node : Nat} {value : Word}
    (hset : (circuit.setNode node value).map Prod.snd = .ok changed) : inv changed := by
  unfold Circuit.setNode at hset
  split at hset
  · rename_i hnode
    cases hset
    exact hinv.store h hnode value
  · cases hset

theorem probe (hinv : Persists inv) (h : inv circuit) {name : String}
    (hprobe : circuit.probe name = .ok changed) : inv changed := by
  unfold Circuit.probe at hprobe
  split at hprobe
  · rename_i node hnode
    cases hprobe
    exact hinv.relog h (circuit.state.signals.probe node name).probes circuit.state.signals.log
  · cases hprobe

theorem tick (hinv : Persists inv) (h : inv circuit) : inv circuit.tick :=
  hinv.rise (hinv.refreshed (hinv.note h _))

theorem tock (hinv : Persists inv) (h : inv circuit) : inv circuit.tock :=
  hinv.refreshed (hinv.fall (hinv.note h _))

theorem drive (hinv : Persists inv) (h : inv circuit) (stimulus : Stimulus) :
    inv (circuit.drive stimulus) := by
  cases stimulus with
  | set name value => exact edited h fun changed hset => hinv.set h hset
  | eval => exact hinv.evalGate h circuit.root.mem_all_self
  | tick => exact hinv.tick h
  | tock => exact hinv.tock h
  | pulse => exact hinv.tock (hinv.tick h)

theorem perform (hinv : Persists inv) (h : inv circuit) (command : Command) :
    inv (circuit.perform command) := by
  cases command with
  | drive stimulus => exact hinv.drive h stimulus
  | setChecked name value => exact edited h fun changed hset => hinv.setChecked h hset
  | setNode node value => exact edited h fun changed hset => hinv.setNode h hset
  | evalGate path =>
    rw [Circuit.perform]
    split
    · rename_i gate hgate
      exact hinv.evalGate h (Gate.mem_all_iff_exists_path.mpr ⟨path, hgate⟩)
    · exact h
  | rise => exact hinv.rise h
  | fall => exact hinv.fall h
  | probe name => exact edited h fun changed hprobe => hinv.probe h hprobe

theorem performAll (hinv : Persists inv) (h : inv circuit) (commands : List Command) :
    inv (circuit.performAll commands) := by
  induction commands generalizing circuit with
  | nil => exact h
  | cons command commands ih => exact ih (hinv.perform h command)

end Persists

namespace Ready

theorem sweepBound_le (h : Ready root draft circuit) : draft.sweepBound ≤ circuit.sweepLimit := by
  rw [sweepLimit, h.netlist_eq, Draft.sweepBound]
  omega

theorem update (h : Ready root draft circuit) {f : State → State}
    (hsound : Sound root draft (f circuit.state)) : Ready root draft (circuit.update f) :=
  ⟨h.root_eq, h.netlist_eq, h.fabric, hsound⟩

theorem store (h : Ready root draft circuit) {node : Nat} (hnode : node ∈ circuit.root.inputs)
    (value : Word) : Ready root draft (circuit.store node value) := by
  apply h.update
  rw [h.netlist_eq]
  rw [h.root_eq] at hnode
  obtain ⟨hsane, hhonest⟩ := h.sound.sane.put_input h.fabric h.sound.honest hnode value
  exact ⟨hsane, hhonest⟩

theorem evalGate (h : Ready root draft circuit) {gate : Gate} (hgate : gate ∈ circuit.root.all) :
    Ready root draft (circuit.evalGate gate) := by
  obtain ⟨level, hlevel⟩ := h.fabric.levels
  apply h.update
  rw [h.netlist_eq]
  rw [h.root_eq] at hgate
  exact (h.sound.eval h.fabric hlevel h.sweepBound_le hgate).1.sound

theorem eval (h : Ready root draft circuit) : Ready root draft circuit.eval := by
  apply h.evalGate
  rw [h.root_eq]
  exact root.mem_all_self

theorem state_eval (h : Ready root draft circuit) :
    circuit.eval.state = root.eval draft.netlist circuit.sweepLimit circuit.state := by
  simp only [Circuit.eval, Circuit.update, h.root_eq, h.netlist_eq]

theorem state_store (h : Ready root draft circuit) (node : Nat) (value : Word) :
    (circuit.store node value).state = circuit.state.put draft.netlist node value := by
  rw [← h.netlist_eq]
  rfl

theorem state_refreshed (h : Ready root draft circuit) :
    circuit.refreshed.state = root.refresh draft.netlist circuit.sweepLimit circuit.state := by
  simp only [Circuit.refreshed, Circuit.update, h.root_eq, h.netlist_eq]

theorem state_rise (h : Ready root draft circuit) :
    circuit.rise.state = root.rise draft.netlist circuit.sweepLimit circuit.state := by
  simp only [Circuit.rise, Circuit.update, h.root_eq, h.netlist_eq]

theorem state_fall (h : Ready root draft circuit) :
    circuit.fall.state = root.fall draft.netlist circuit.sweepLimit circuit.state := by
  simp only [Circuit.fall, Circuit.update, h.root_eq, h.netlist_eq]

theorem rested_eval (h : Ready root draft circuit) :
    Rested root draft circuit.state circuit.eval.state := by
  rw [h.state_eval]
  exact h.sound.rested_eval h.fabric h.sweepBound_le

theorem rested_refreshed (h : Ready root draft circuit) :
    Rested root draft circuit.state circuit.refreshed.state := by
  rw [h.state_refreshed]
  exact (h.sound.rested_refresh h.fabric h.sweepBound_le).1

theorem refreshed (h : Ready root draft circuit) : Ready root draft circuit.refreshed :=
  h.update h.rested_refreshed.sound

theorem rise (h : Ready root draft circuit) : Ready root draft circuit.rise := by
  apply h.update
  rw [h.root_eq, h.netlist_eq]
  exact (h.sound.rise h.fabric h.sweepBound_le root.mem_all_self).1

theorem latched_rise (h : Ready root draft circuit) (hrest : circuit.state.AtRest root) :
    Latched root (· ∈ root.all) circuit.state circuit.rise.state := by
  have hlimit : 1 ≤ circuit.sweepLimit := by
    unfold sweepLimit
    omega
  rw [h.state_rise]
  exact ClockedLogic.latched_rise h.fabric hlimit root.mem_all_self h.sound hrest

theorem fallen_fall (h : Ready root draft circuit) :
    Fallen root draft (fun _ => False) (· ∈ root.all) circuit.state circuit.fall.state := by
  rw [h.state_fall]
  exact (h.sound.fall h.fabric h.sweepBound_le).1

theorem fall (h : Ready root draft circuit) : Ready root draft circuit.fall :=
  h.update h.fallen_fall.sound

/-- On a rising edge of a circuit at rest a primitive latches what follows from what it holds and
from the values of its inputs. -/
theorem stored_rise (h : Ready root draft circuit) (hrest : circuit.state.AtRest root) {site : Site}
    {kind : Primitive} (hgate : .builtIn site (.primitive kind) ∈ root.all) :
    circuit.rise.state.held site.index = circuit.state.held site.index ∧
      circuit.rise.state.latched site.index =
        kind.next (circuit.state.held site.index) (site.inputs.map circuit.value) := by
  have hlatched := h.latched_rise hrest
  obtain ⟨chip, hchip, hrealizes⟩ := h.sound.sane.chips site kind hgate
  simp only [State.held, State.latched, hlatched.latched site _ hgate hgate, hchip, Option.map_some]
  exact ⟨chip.held_rise _, hrealizes.held_fall_rise _⟩

/-- On a falling edge a primitive takes over what it has latched. -/
theorem stored_fall (h : Ready root draft circuit) {site : Site} {spec : ChipSpec}
    (hgate : .builtIn site spec ∈ root.all) :
    circuit.fall.state.held site.index = circuit.state.latched site.index ∧
      circuit.fall.state.latched site.index = circuit.state.latched site.index := by
  simp only [State.held, State.latched, h.fallen_fall.fallen site spec hgate hgate]
  cases circuit.state.chip? site.index with
  | none => exact ⟨rfl, rfl⟩
  | some chip => exact ⟨rfl, chip.held_fall_fall⟩

/-- Every command keeps a circuit ready for the next one. -/
theorem persists : Persists (Ready root draft) where
  store h hnode value := h.store hnode value
  relog h _ _ := h.update ⟨h.sound.sane.congr rfl rfl rfl, h.sound.honest.congr rfl rfl rfl⟩
  evalGate h hgate := h.evalGate hgate
  refreshed h := h.refreshed
  rise h := h.rise
  fall h := h.fall

theorem note (h : Ready root draft circuit) (record : Record) :
    Ready root draft (circuit.note record) := persists.note h record

theorem tick (h : Ready root draft circuit) : Ready root draft circuit.tick := persists.tick h

theorem tock (h : Ready root draft circuit) : Ready root draft circuit.tock := persists.tock h

theorem drive (h : Ready root draft circuit) (stimulus : Stimulus) :
    Ready root draft (circuit.drive stimulus) := persists.drive h stimulus

theorem performAll (h : Ready root draft circuit) (commands : List Command) :
    Ready root draft (circuit.performAll commands) := persists.performAll h commands

theorem atRest_tick (h : Ready root draft circuit) : circuit.tick.state.AtRest root := by
  have hnoted := h.note ⟨.trace, s!"tick {circuit.component.name}"⟩
  have hrest := hnoted.rested_refreshed.atRest
  exact (hnoted.refreshed.latched_rise hrest).atRest h.fabric hnoted.refreshed.sound.sane
    root.mem_all_self hrest

theorem atRest_tock (h : Ready root draft circuit) : circuit.tock.state.AtRest root :=
  (h.note _).fall.rested_refreshed.atRest

/-- All stimuli but edits leave a circuit at rest. -/
theorem atRest_drive (h : Ready root draft circuit) {stimulus : Stimulus}
    (hsettles : stimulus.settles = true) : (circuit.drive stimulus).state.AtRest root := by
  cases stimulus with
  | set name value => cases hsettles
  | eval => exact h.rested_eval.atRest
  | tick => exact h.atRest_tick
  | tock => exact h.atRest_tock
  | pulse => exact h.tick.atRest_tock

end Ready

/-- What holds of the circuit of a component before its first evaluation. -/
structure Made (sharing : Bool) (component : Component) (draft : Draft) (initial : Circuit) :
    Prop where
  drafted : Draft.empty.executeAll (component.placeRoot sharing).statements = .ok draft
  state_eq : ∃ chips, makeChips (component.placeRoot sharing).result.all = .ok chips ∧
    initial.state = ⟨.start draft (component.placeRoot sharing).cursor.gates, chips.toArray⟩
  ready : Ready (component.placeRoot sharing).result draft initial
  fresh : Fresh (component.placeRoot sharing).result draft initial.state
  raised : ∀ node bit, bitOf draft.values node bit = true ↔
    IsRaised (component.placeRoot sharing).statements draft.netlist.width node bit

/-- Placing a well wired component never fails. -/
theorem exists_made (sharing : Bool) (h : WellWired component) :
    ∃ draft initial, Made sharing component draft initial := by
  obtain ⟨draft, hdraft, fabric, hraised⟩ := Component.exists_fabric sharing h
  obtain ⟨chips, hchips, hfresh⟩ := fabric.exists_fresh
  have hgates : (component.placeRoot sharing).cursor.gates =
      (component.placeRoot sharing).result.all.length :=
    (Component.root_isPlaced.gates).trans (Nat.zero_add _)
  rw [← hgates] at hfresh
  exact ⟨draft, ⟨(component.placeRoot sharing).result, draft.netlist,
    ⟨.start draft (component.placeRoot sharing).cursor.gates, chips.toArray⟩⟩, hdraft,
    ⟨chips, hchips, rfl⟩, ⟨rfl, rfl, fabric, hfresh.sound⟩, hfresh, hraised⟩

namespace Made

variable {initial : Circuit}

theorem ofPlaced_eq (h : Made sharing component draft initial) :
    ofPlaced (component.placeRoot sharing) = .ok initial := by
  obtain ⟨chips, hchips, hstate⟩ := h.state_eq
  have hinitial : initial =
    ⟨(component.placeRoot sharing).result, draft.netlist, initial.state⟩ := by
    rw [← h.ready.root_eq, ← h.ready.netlist_eq]
  rw [ofPlaced, h.drafted, hinitial, hstate]
  simp only [bind, Except.bind, hchips, pure, Except.pure]

theorem place_eq (h : Made sharing component draft initial) :
    Circuit.place sharing component = .ok (initial.eval.note initial.eval.placeRecord) := by
  rw [Circuit.place, h.ofPlaced_eq]
  rfl

theorem exists_drafted (h : Made sharing component draft initial) (hwired : WellWired component) :
    ∃ width, Component.Drafted sharing component width draft := by
  obtain ⟨width, drafted, hdraft, hrendered⟩ := Component.exists_rendered sharing hwired.fitted
  obtain rfl : drafted = draft := Except.ok.inj (hdraft.symm.trans h.drafted)
  exact ⟨width, hrendered.drafted hwired⟩

theorem ready_place (h : Made sharing component draft initial) :
    Ready (component.placeRoot sharing).result draft (initial.eval.note initial.eval.placeRecord) :=
  h.ready.eval.note _

end Made

end Circuit

end ClockedLogic
