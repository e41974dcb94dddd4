import ClockedLogic.Proofs.PinRuns

/-!
A part behaves as its component does alone. Beside a circuit runs another one, of the component of
one of its gates. It gets the same clock edges, and whenever the circuit has been brought up to
date, its inputs are set to what the inputs of the gate carry. However often these change meanwhile,
and however often the gate is evaluated and clocked on the way, the two hold the same at the end of
every step, and so they show the same.
-/

namespace ClockedLogic

open Component Word

namespace Circuit

/-- Sets the nodes of inputs in order; other nodes are refused. -/
def setNodes (circuit : Circuit) (edits : List (Nat × Word)) : Circuit :=
  edits.foldl (fun circuit edit =>
    circuit.edited ((circuit.setNode edit.1 edit.2).map Prod.snd)) circuit

def feed (circuit : Circuit) (values : List Word) : Circuit :=
  circuit.setNodes (circuit.root.inputs.zip values)

theorem setNodes_cons {circuit : Circuit} {edit : Nat × Word} (h : edit.1 ∈ circuit.root.inputs)
    (edits : List (Nat × Word)) :
    circuit.setNodes (edit :: edits) = (circuit.store edit.1 edit.2).setNodes edits := by
  rw [setNodes, List.foldl_cons, setNode, if_pos h]
  rfl

end Circuit

def Stimulus.rises : Stimulus → Bool
  | tick | pulse => true
  | set _ _ | eval | tock => false

/-- A circuit, and a circuit of the component of one of its gates. -/
structure Tandem where
  whole : Circuit
  alone : Circuit

namespace Tandem

/-- Sets the inputs of the circuit alone to what the inputs of the gate carry and evaluates it. -/
def sync (gate : Gate) (tandem : Tandem) : Tandem :=
  { tandem with alone := (tandem.alone.feed (gate.inputs.map tandem.whole.value)).eval }

/-- Drives both circuits. Only the whole circuit is edited. -/
def drive (gate : Gate) (tandem : Tandem) : Stimulus → Tandem
  | .set name value => { tandem with whole := tandem.whole.drive (.set name value) }
  | .eval => sync gate { tandem with whole := tandem.whole.eval }
  | .tick => ⟨tandem.whole.tick, tandem.alone.tick⟩
  | .tock => sync gate ⟨tandem.whole.tock, tandem.alone.tock⟩
  | .pulse => sync gate ⟨tandem.whole.pulse, tandem.alone.pulse⟩

def driveAll (gate : Gate) (tandem : Tandem) (stimuli : List Stimulus) : Tandem :=
  stimuli.foldl (drive gate) tandem

end Tandem

open Circuit

variable {sharing sharing' : Bool} {component inner : Component} {path : List Nat}
  {draft draft' : Draft} {circuit whole alone : Circuit}

namespace Circuit.Intact

theorem setNodes (h : Intact sharing component draft circuit) {edits : List (Nat × Word)}
    (hedits : ∀ edit ∈ edits, edit.1 ∈ circuit.root.inputs) :
    Intact sharing component draft (circuit.setNodes edits) ∧
      (circuit.setNodes edits).state.chips = circuit.state.chips := by
  induction edits generalizing circuit with
  | nil => exact ⟨h, rfl⟩
  | cons edit edits ih =>
    have hnode := hedits edit List.mem_cons_self
    rw [setNodes_cons hnode]
    exact ih (h.store hnode edit.2) fun other hother => hedits other (List.mem_cons_of_mem _ hother)

/-- Inputs that are not set are what they were. -/
theorem value_setNodes_of_notMem (h : Intact sharing component draft circuit)
    {edits : List (Nat × Word)} (hedits : ∀ edit ∈ edits, edit.1 ∈ circuit.root.inputs)
    {other : Nat} (hother : other ∈ circuit.root.inputs) (hnot : other ∉ edits.map Prod.fst) :
    (circuit.setNodes edits).value other = circuit.value other := by
  induction edits generalizing circuit with
  | nil => rfl
  | cons edit edits ih =>
    have hnode := hedits edit List.mem_cons_self
    rw [List.map_cons, List.mem_cons, not_or] at hnot
    rw [setNodes_cons hnode, ih (h.store hnode edit.2)
      (fun other hother => hedits other (List.mem_cons_of_mem _ hother)) hother hnot.2,
      h.value_store hnode hother, if_neg hnot.1]

theorem value_setNodes (h : Intact sharing component draft circuit) {edits : List (Nat × Word)}
    (hedits : ∀ edit ∈ edits, edit.1 ∈ circuit.root.inputs) (hnodup : (edits.map Prod.fst).Nodup)
    {edit : Nat × Word} (hmem : edit ∈ edits) :
    (circuit.setNodes edits).value edit.1 = edit.2 := by
  induction edits generalizing circuit with
  | nil => cases hmem
  | cons first edits ih =>
    have hnode := hedits first List.mem_cons_self
    have hlater : ∀ edit ∈ edits, edit.1 ∈ circuit.root.inputs :=
      fun other hother => hedits other (List.mem_cons_of_mem _ hother)
    rw [List.map_cons, List.nodup_cons] at hnodup
    rw [setNodes_cons hnode]
    rcases List.mem_cons.mp hmem with rfl | hmem
    · rw [(h.store hnode edit.2).value_setNodes_of_notMem hlater hnode hnodup.1,
        h.value_store hnode hnode, if_pos rfl]
    · exact ih (h.store hnode first.2) hlater hnodup.2 hmem

/-- All inputs can be set at once. -/
theorem feed (h : Intact sharing component draft circuit) {values : List Word}
    (hlength : values.length = component.inputs.length) :
    Intact sharing component draft (circuit.feed values) ∧
      (circuit.feed values).state.chips = circuit.state.chips ∧
      ∀ index < component.inputs.length,
        (circuit.feed values).value index = values.getD index 0 := by
  have hedits : ∀ edit ∈ circuit.root.inputs.zip values, edit.1 ∈ circuit.root.inputs :=
    fun edit hedit => (List.of_mem_zip hedit).1
  obtain ⟨hintact, hchips⟩ := h.setNodes hedits
  refine ⟨hintact, hchips, fun index hlt => ?_⟩
  have hnodup : ((circuit.root.inputs.zip values).map Prod.fst).Nodup := by
    rw [List.map_fst_zip (by rw [h.inputs_eq, List.length_range, hlength]), h.inputs_eq]
    exact List.nodup_range
  have hmem : (index, values.getD index 0) ∈ circuit.root.inputs.zip values := by
    rw [h.inputs_eq, List.mem_iff_getElem?]
    refine ⟨index, ?_⟩
    rw [List.getElem?_zip_eq_some, List.getElem?_range hlt, List.getD_eq_getElem?_getD,
      List.getElem?_eq_getElem (hlength ▸ hlt), Option.getD_some]
    exact ⟨rfl, rfl⟩
  exact h.value_setNodes hedits hnodup hmem

section Rest

variable (h : Intact sharing component draft circuit)
  (hrest : circuit.state.AtRest (component.rootPlaced sharing).result)

include h hrest

/-- Bringing a circuit at rest up to date shows nowhere. -/
theorem pinValues_refreshed : circuit.refreshed.pinValues = circuit.pinValues := by
  have hlimit : 1 ≤ circuit.sweepLimit := by
    unfold sweepLimit
    omega
  have hsame : circuit.refreshed.state = circuit.state := by
    rw [h.ready.state_refreshed]
    exact (refresh_atRest h.ready.fabric h.ready.sound.sane hlimit (Gate.mem_all_self _) hrest).1
  have hvalue : circuit.refreshed.value = circuit.value := by
    funext node
    rw [Circuit.value, hsame, Circuit.value]
  rw [pinValues, hvalue]
  rfl

theorem pinValues_rise : circuit.rise.pinValues = circuit.pinValues := by
  have hvalue : circuit.rise.value = circuit.value := by
    funext node
    rw [Circuit.value, (h.ready.latched_rise hrest).signals, Circuit.value]
  rw [pinValues, hvalue]
  rfl

theorem pinValues_tick : circuit.tick.pinValues = circuit.pinValues := by
  have hnoted := h.note ⟨.trace, s!"tick {circuit.component.name}"⟩
  have hrisen := hnoted.refreshed.pinValues_rise hnoted.ready.rested_refreshed.atRest
  exact hrisen.trans (hnoted.pinValues_refreshed (hrest.congr rfl rfl rfl))

end Rest
end Circuit.Intact

namespace Abreast

/-- On a rising edge at rest the component latches the same in both circuits. -/
theorem tick (h : Abreast sharing sharing' component inner view draft draft' whole alone)
    (hrest : whole.state.AtRest (component.rootPlaced sharing).result)
    (hrest' : alone.state.AtRest (inner.rootPlaced sharing').result)
    (hinputs : SameInputs inner view whole alone) :
    Abreast sharing sharing' component inner view draft draft' whole.tick alone.tick := by
  have hnoted := h.note ⟨.trace, s!"tick {whole.component.name}"⟩
    ⟨.trace, s!"tick {alone.component.name}"⟩
  refine hnoted.refreshed.rise hnoted.intact.ready.rested_refreshed.atRest
    hnoted.intact'.ready.rested_refreshed.atRest fun index pin hpin => ?_
  rw [hnoted.intact.pinValues_refreshed (hrest.congr rfl rfl rfl),
    hnoted.intact'.pinValues_refreshed (hrest'.congr rfl rfl rfl)]
  exact hinputs index pin hpin

theorem tock (h : Abreast sharing sharing' component inner view draft draft' whole alone) :
    Abreast sharing sharing' component inner view draft draft' whole.tock alone.tock :=
  (h.note _ _).fall.refreshed

end Abreast

namespace Tandem

variable {gate : Gate} {tandem : Tandem}

/-- The whole circuit goes its own way. -/
theorem whole_driveAll (gate : Gate) (tandem : Tandem) (stimuli : List Stimulus) :
    (tandem.driveAll gate stimuli).whole = tandem.whole.driveAll stimuli := by
  induction stimuli generalizing tandem with
  | nil => rfl
  | cons stimulus stimuli ih =>
    have hstep : (tandem.drive gate stimulus).whole = tandem.whole.drive stimulus := by
      cases stimulus <;> rfl
    rw [driveAll, List.foldl_cons, Circuit.driveAll, List.foldl_cons, ← hstep]
    exact ih _

/-- What holds of both circuits between any two steps. -/
structure Aligned (component inner : Component) (path : List Nat) (draft draft' : Draft)
    (tandem : Tandem) : Prop
    extends Abreast true true component inner (.beyond path) draft draft' tandem.whole
      tandem.alone where
  rest : tandem.alone.state.AtRest (inner.rootPlaced true).result
  driven : ∀ role, role ≠ .input →
    tandem.whole.pinValues path role = tandem.alone.pinValues [] role

/-- What holds of them in addition after a step that is no edit. -/
structure Synced (component inner : Component) (path : List Nat) (draft draft' : Draft)
    (tandem : Tandem) : Prop extends Aligned component inner path draft draft' tandem where
  wholeRest : tandem.whole.state.AtRest (component.rootPlaced true).result
  inputs : SameInputs inner (.beyond path) tandem.whole tandem.alone

variable (hgate : (component.rootPlaced true).result.descend? path = some gate)

include hgate

/-- If the whole circuit is at rest, both circuits show the same as soon as the inputs of the other
one have been set. -/
theorem synced_sync
    (h : Abreast true true component inner (.beyond path) draft draft' tandem.whole tandem.alone)
    (hrest : tandem.whole.state.AtRest (component.rootPlaced true).result) :
    Synced component inner path draft draft' (sync gate tandem) := by
  have hvalues : gate.inputs.map tandem.whole.value = tandem.whole.pinValues path .input := by
    simp only [pinValues, h.intact.ready.root_eq, Gate.pinValues, hgate, Gate.nodesOf]
  have hlength := (h.shows.settled (h.intact.settled hrest)).length_eq .input
  rw [View.values_beyond_nil, ← hvalues] at hlength
  obtain ⟨hintact, hchips, hfed⟩ := h.intact'.feed hlength
  have hrested := hintact.ready.rested_eval
  have habreast : Abreast true true component inner (.beyond path) draft draft' tandem.whole
      (sync gate tandem).alone :=
    h.keep h.intact rfl hintact.eval (hrested.chips.trans hchips)
  have hinputs : SameInputs inner (.beyond path) tandem.whole (sync gate tandem).alone := by
    intro index pin hpin
    have hlt := (List.getElem?_eq_some_iff.mp hpin).1
    have hentry := hrested.entries index (hintact.ready.root_eq ▸ hintact.mem_inputs.mpr hlt)
    apply Alike.of_eq
    calc ((View.beyond path).values tandem.whole.pinValues).pin [] .input index
      _ = (gate.inputs.map tandem.whole.value).getD index 0 := by
        rw [PinValues.pin, View.values_beyond_nil, hvalues]
      _ = (tandem.alone.feed (gate.inputs.map tandem.whole.value)).value index :=
        (hfed index hlt).symm
      _ = (sync gate tandem).alone.value index := hentry.symm
      _ = (sync gate tandem).alone.pinValues.pin [] .input index :=
        (hintact.eval.pin_input hlt).symm
  have hsame := habreast.sameValues hrest hrested.atRest hinputs
  refine ⟨⟨habreast, hrested.atRest, fun role hrole => ?_⟩, hrest, hinputs⟩
  have hdriven := hsame.driven [] inner rfl role hrole
  rwa [View.values_beyond_nil] at hdriven

omit hgate in
theorem Aligned.set (h : Aligned component inner path draft draft' tandem) (name : String)
    (value : Word) :
    Aligned component inner path draft draft' (tandem.drive gate (.set name value)) := by
  rw [drive, Circuit.drive]
  cases hset : tandem.whole.set name value with
  | error error => exact h
  | ok changed =>
    obtain ⟨node, hnode, rfl⟩ := exists_of_set_eq_ok hset
    refine ⟨h.toAbreast.keep (h.intact.store hnode value) rfl h.intact' rfl, h.rest,
      fun role hrole => ?_⟩
    exact (h.intact.driven_store hnode value path hrole).trans (h.driven role hrole)

omit hgate in
theorem Synced.tick (h : Synced component inner path draft draft' tandem) :
    Synced component inner path draft draft' (tandem.drive gate .tick) := by
  have hwhole : (tandem.drive gate .tick).whole.pinValues = tandem.whole.pinValues :=
    h.intact.pinValues_tick h.wholeRest
  have halone : (tandem.drive gate .tick).alone.pinValues = tandem.alone.pinValues :=
    h.intact'.pinValues_tick h.rest
  refine ⟨⟨h.toAbreast.tick h.wholeRest h.rest h.inputs, h.intact'.ready.atRest_tick,
    fun role hrole => ?_⟩, h.intact.ready.atRest_tick, fun index pin hpin => ?_⟩
  · rw [hwhole, halone]
    exact h.driven role hrole
  · rw [hwhole, halone]
    exact h.inputs index pin hpin

/-- Every step but an edit leaves both circuits in line, if no rising edge follows an edit. -/
theorem Aligned.drive (h : Aligned component inner path draft draft' tandem) {stimulus : Stimulus}
    (hrises : stimulus.rises = true → Synced component inner path draft draft' tandem) :
    Aligned component inner path draft draft' (tandem.drive gate stimulus) ∧
      (stimulus.settles = true →
        Synced component inner path draft draft' (tandem.drive gate stimulus)) := by
  have hboth : Synced component inner path draft draft' (tandem.drive gate stimulus) →
      Aligned component inner path draft draft' (tandem.drive gate stimulus) ∧
        (stimulus.settles = true →
          Synced component inner path draft draft' (tandem.drive gate stimulus)) :=
    fun hsynced => ⟨hsynced.toAligned, fun _ => hsynced⟩
  cases stimulus with
  | set name value => exact ⟨h.set name value, fun hsettles => by cases hsettles⟩
  | eval =>
    have hrested := h.intact.ready.rested_eval
    have hevaluated : Abreast true true component inner (.beyond path) draft draft'
        tandem.whole.eval tandem.alone := h.toAbreast.keep h.intact.eval hrested.chips h.intact' rfl
    exact hboth (synced_sync hgate hevaluated hrested.atRest)
  | tick => exact hboth (hrises rfl).tick
  | tock =>
    have htocked : Abreast true true component inner (.beyond path) draft draft' tandem.whole.tock
        tandem.alone.tock := h.toAbreast.tock
    exact hboth (synced_sync hgate htocked h.intact.ready.atRest_tock)
  | pulse =>
    have hticked : Synced component inner path draft draft' (tandem.drive gate .tick) :=
      (hrises rfl).tick
    have hpulsed : Abreast true true component inner (.beyond path) draft draft' tandem.whole.pulse
        tandem.alone.pulse := hticked.toAbreast.tock
    exact hboth (synced_sync hgate hpulsed h.intact.tick.ready.atRest_tock)

/-- After every step the circuit alone shows the same. -/
theorem Synced.driveAll (h : Synced component inner path draft draft' tandem)
    {stimuli : List Stimulus} (hchain : stimuli.IsChain fun before after =>
      after.rises = true → before.settles = true) :
    Aligned component inner path draft draft' (tandem.driveAll gate stimuli) ∧
      (stimuli.getLast?.all Stimulus.settles = true →
        Synced component inner path draft draft' (tandem.driveAll gate stimuli)) := by
  induction stimuli using List.reverseRecOn with
  | nil => exact ⟨h.toAligned, fun _ => h⟩
  | append_singleton stimuli stimulus ih =>
    obtain ⟨hbefore, -, hlast⟩ := List.isChain_append.mp hchain
    obtain ⟨haligned, hsynced⟩ := ih hbefore
    simp only [Tandem.driveAll, List.foldl_append, List.foldl_cons, List.foldl_nil,
      List.getLast?_append, List.getLast?_singleton, Option.some_or, Option.all_some]
    refine haligned.drive hgate fun hrises => hsynced ?_
    rw [Option.all_eq_true]
    exact fun before hmem => hlast before hmem stimulus rfl hrises

end Tandem

/-- Every gate of the circuit of a standard component behaves as a circuit of its own component.
This is driven beside the whole circuit: it gets the same clock edges, and after each evaluation of
the whole circuit its inputs are set to what the inputs of the gate carry, and it is evaluated. If
no rising edge follows an edit, all outputs and internal pins of both carry the same after every
step. -/
theorem Circuit.part_as_alone (h : Standard component) :
    ∃ circuit, Circuit.ofComponent component = .ok circuit ∧
      ∀ path gate, circuit.gate? path = some gate →
        ∃ alone, Circuit.ofComponent gate.component = .ok alone ∧ ∀ stimuli : List Stimulus,
          (stimuli.IsChain fun before after => after.rises = true → before.settles = true) →
          let now := Tandem.driveAll gate (Tandem.sync gate ⟨circuit, alone⟩) stimuli
          now.whole = circuit.driveAll stimuli ∧ ∀ role, role ≠ .input →
            (gate.nodesOf role).map now.whole.value = now.alone.valuesOf role := by
  obtain ⟨draft, circuit, hbegun⟩ := exists_begun true h.wellWired
  refine ⟨circuit, hbegun.place_eq, fun path gate hgate => ?_⟩
  rw [gate?, hbegun.intact.ready.root_eq] at hgate
  have hinner := descend?_of_gate hgate
  obtain ⟨draft', alone, hbegun'⟩ := exists_begun true (h.wellWired.descend hinner)
  refine ⟨alone, hbegun'.place_eq, fun stimuli hchain => ⟨Tandem.whole_driveAll _ _ _, ?_⟩⟩
  intro role hrole
  have hstart : (Tandem.sync gate ⟨circuit, alone⟩).Synced component gate.component path draft
      draft' := Tandem.synced_sync hgate (.of_begun hinner hbegun hbegun') hbegun.atRest
  have haligned := (hstart.driveAll hgate hchain).1
  have hdriven := haligned.driven role hrole
  simp only [pinValues, haligned.intact.ready.root_eq, Gate.pinValues, hgate] at hdriven
  exact hdriven

/-- For example, a part of a register behind an inverter, while a bit gets through. -/
theorem Circuit.part_as_alone_delay : ∃ component circuit gate alone,
    Blueprint.delay.build = .ok component ∧ Circuit.ofComponent component = .ok circuit ∧
      circuit.gate? [0] = some gate ∧ Circuit.ofComponent gate.component = .ok alone ∧
      let stimuli : List Stimulus := [.set "in" 1, .eval, .pulse, .set "in" 0, .eval]
      let now := Tandem.driveAll gate (Tandem.sync gate ⟨circuit, alone⟩) stimuli
      ∀ role, role ≠ .input →
        (gate.nodesOf role).map now.whole.value = now.alone.valuesOf role := by
  obtain ⟨component, hbuild, hstandard, -, hparts, -⟩ := Blueprint.exists_delay
  obtain ⟨circuit, hcircuit, halone⟩ := part_as_alone hstandard
  obtain ⟨draft, begun, hbegun⟩ := exists_begun true hstandard.wellWired
  obtain rfl : begun = circuit := Except.ok.inj (hbegun.place_eq.symm.trans hcircuit)
  have hpart : component.parts[0]? = some component.parts[0] := List.getElem?_eq_getElem _
  obtain ⟨inputs, outputs, cursor, hgate⟩ := exists_gate (descend?_cons hpart []) true
  rw [← hbegun.intact.ready.root_eq] at hgate
  obtain ⟨alone, hmade, hruns⟩ := halone [0] _ hgate
  exact ⟨component, begun, _, alone, hbuild, hcircuit, hgate, hmade, (hruns _ (by decide)).2⟩

end ClockedLogic
