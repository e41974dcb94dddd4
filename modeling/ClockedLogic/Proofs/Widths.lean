import ClockedLogic.Proofs.Enduring
import ClockedLogic.Proofs.PinRuns

/-!
Values stay within widths. If inputs are only given values that fit, no node ever has a bit that its
width has not, whichever gates are brought up to date or clocked, in whatever order. Outputs of
primitives fit because of what their chips can hold, and every other node gets its bits over spans
that lie within its width.
-/

namespace ClockedLogic

open Word

namespace Component

variable {sharing : Bool} {component : Component} {width : Nat → Nat} {draft : Draft}
  {state : State}

theorem Drafted.width_eq (h : Drafted sharing component width draft) {gate : Gate}
    (hgate : gate ∈ (component.rootPlaced sharing).result.all) {role : PinRole} {index node : Nat}
    {pin : Pin} (hpin : (gate.component.pinsOf role)[index]? = some pin)
    (hnode : (gate.nodesOf role)[index]? = some node) : draft.netlist.width node = pin.width := by
  obtain ⟨hwidth, hlt⟩ := (h.housed gate hgate role).getElem? hpin hnode
  rw [h.executed.hasWidths.width_eq node hlt, hwidth]

/-- If the inputs and the outputs of all primitives fit, so do all nodes. -/
theorem Drafted.fits (h : Drafted sharing component width draft)
    (hsane : Sane (component.rootPlaced sharing).result draft state)
    (hinputs : ∀ node ∈ (component.rootPlaced sharing).result.inputs,
      fits (draft.netlist.width node) (state.value node) = true)
    (houtputs : (component.rootPlaced sharing).result.OutputsFit state.value) (node : Nat) :
    fits (draft.netlist.width node) (state.value node) = true := by
  have hcarried := h.rendered.carried hsane
  have hroot := Gate.mem_all_self (component.rootPlaced sharing).result
  by_cases hpins : ∃ gate ∈ (component.rootPlaced sharing).result.all, ∃ role,
      node ∈ gate.nodesOf role
  · obtain ⟨gate, hgate, role, hnode⟩ := hpins
    obtain ⟨path, hpath⟩ := Gate.mem_all_iff_exists_path.mp hgate
    obtain ⟨index, hindex⟩ := List.mem_iff_getElem?.mp hnode
    have hlt := (List.getElem?_eq_some_iff.mp hindex).1
    rw [← (h.housed gate hgate role).length_eq] at hlt
    have hpin := List.getElem?_eq_getElem hlt
    have hvalue :
        ((component.rootPlaced sharing).result.pinValues state.value).pin path role index =
        state.value node := Gate.pin_pinValues hpath hindex
    rw [h.width_eq hgate hpin hindex, ← hvalue]
    refine (spot_rootPlaced sharing h.wellWired.fitted).fits_pins h.wellWired h.housed hcarried
      houtputs (fun place input pin hpin hinput => ?_) (descend?_of_gate hpath) hpin
    have hcomponent : (component.rootPlaced sharing).result.component = component :=
      root_isPlaced.component_eq
    have hnodes : (component.rootPlaced sharing).result.inputs =
        List.range component.inputs.length := root_isPlaced.inputs_eq
    rw [← hnodes] at hinput
    have hwidth := @width_eq _ _ _ _ h _ hroot .input place input pin
      (by rw [hcomponent]; exact hpin) hinput
    rw [← hwidth]
    exact hinputs input (List.mem_of_getElem? hinput)
  · refine fits_iff.mpr fun bit _ => hcarried.rest node bit
      (fun hentry => hpins ⟨_, hroot, .input, hentry⟩) fun driver hdriver hbit => hpins ?_
    exact pin_of_driver h.rendered.fitted root_seat hdriver hbit.drives

end Component

namespace Chip

variable {kind : Primitive} {chip : Chip}

/-- Whether a chip of a primitive holds what the primitive can hold, and has latched such. -/
structure Contains (kind : Primitive) (chip : Chip) : Prop where
  realizes : chip.Realizes kind
  held : kind.CanHold chip.held
  latched : kind.CanHold chip.fall.held

theorem Contains.rise (h : Contains kind chip) (inputs : List Word) :
    Contains kind (chip.rise inputs) where
  realizes := h.realizes.rise inputs
  held := by
    rw [held_rise]
    exact h.held
  latched := by
    rw [h.realizes.held_fall_rise]
    exact h.held.next inputs

theorem Contains.fall (h : Contains kind chip) : Contains kind chip.fall where
  realizes := h.realizes.fall
  held := h.latched
  latched := by
    rw [fall_fall]
    exact h.latched

/-- What a falling edge shows at once is what the chip would answer, or nothing new. -/
theorem showFallen_cases (chip : Chip) (outputs : List Word) :
    chip.showFallen outputs = outputs ∨ chip.showFallen outputs = chip.fall.respond [] outputs := by
  cases chip with
  | combinational kind => exact .inl rfl
  | memory state => exact .inl rfl
  | _ => exact .inr rfl

theorem Contains.fits_showFallen (h : Contains kind chip) {outputs : List Word}
    (hlength : outputs.length = kind.component.outputs.length) {index : Nat} {pin : Pin}
    (hpin : kind.component.outputs[index]? = some pin)
    (hfits : fits pin.width (outputs.getD index 0) = true) :
    fits pin.width ((chip.showFallen outputs).getD index 0) = true := by
  rcases chip.showFallen_cases outputs with hsame | hanswered
  · rwa [hsame]
  · rw [hanswered, h.realizes.fall.respond_eq _ _ hlength]
    exact Primitive.fits_answer_pin h.latched [] hpin

end Chip

structure Bounded (root : Gate) (draft : Draft) (state : State) : Prop where
  sane : Sane root draft state
  chips : ∀ site kind, .builtIn site (.primitive kind) ∈ root.all →
    ∃ chip, state.chip? site.index = some chip ∧ chip.Contains kind
  inputs : ∀ node ∈ root.inputs, fits (draft.netlist.width node) (state.value node) = true
  outputs : root.OutputsFit state.value

section

variable {root : Gate} {draft : Draft} {state before after : State} {site : Site} {kind : Primitive}

theorem Gate.OutputsFit.getD_read (h : root.OutputsFit state.value)
    (hgate : .builtIn site (.primitive kind) ∈ root.all)
    (hlength : site.outputs.length = kind.component.outputs.length) {index : Nat} {pin : Pin}
    (hpin : kind.component.outputs[index]? = some pin) :
    fits pin.width ((state.read site.outputs).getD index 0) = true := by
  have hlt := (List.getElem?_eq_some_iff.mp hpin).1
  rw [← hlength] at hlt
  have hnode := List.getElem?_eq_getElem hlt
  rw [List.getD_eq_getElem?_getD, State.getElem?_read, hnode]
  exact h site kind hgate index _ pin hpin hnode

theorem Bounded.written (fabric : Fabric root draft)
    (hgate : .builtIn site (.primitive kind) ∈ root.all) {values : List Word}
    (hwritten : Written root draft site.outputs values before after)
    (hinputs : ∀ node ∈ root.inputs, fits (draft.netlist.width node) (before.value node) = true)
    (houtputs : root.OutputsFit before.value)
    (hvalues : ∀ (index : Nat) (pin : Pin), kind.component.outputs[index]? = some pin →
      fits pin.width (values.getD index 0) = true)
    (hchips : ∀ site kind, .builtIn site (.primitive kind) ∈ root.all →
      ∃ chip, before.chip? site.index = some chip ∧ chip.Contains kind) :
    Bounded root draft after where
  sane := hwritten.sane
  chips site' kind' hgate' := by
    rw [State.chip?, hwritten.chips]
    exact hchips site' kind' hgate'
  inputs node hnode := by
    rw [hwritten.frame node (.inl hnode)
      fun hout => fabric.entries_apart site _ node hgate hout hnode]
    exact hinputs node hnode
  outputs site' kind' hgate' index node pin hpin hnode := by
    have hout := List.mem_of_getElem? hnode
    by_cases hmem : node ∈ site.outputs
    · obtain rfl := fabric.outputs_apart site' site _ _ node hgate' hgate hout hmem
      have hsame := fabric.distinct.eq hgate' hgate rfl
      simp only [Gate.builtIn.injEq, ChipSpec.primitive.injEq, true_and] at hsame
      subst hsame
      have hvalue := hvalues index pin hpin
      rwa [List.getD_eq_getElem?_getD, hwritten.written index node hnode] at hvalue
    · rw [hwritten.frame node (.inr ⟨site', _, hgate', hout⟩) hmem]
      exact houtputs site' kind' hgate' index node pin hpin hnode

end

namespace Bounded

variable {root : Gate} {draft : Draft} {state : State} {site : Site} {spec : ChipSpec}

theorem chips_install (h : Bounded root draft state) (fabric : Fabric root draft) {kind : Primitive}
    (hgate : .builtIn site (.primitive kind) ∈ root.all) {chip : Chip}
    (hchip : chip.Contains kind) :
    ∀ site' kind', .builtIn site' (.primitive kind') ∈ root.all →
      ∃ chip', (state.install site.index chip).chip? site'.index = some chip' ∧
        chip'.Contains kind' := by
  intro site' kind' hgate'
  obtain ⟨found, hfound, -⟩ := h.chips site kind hgate
  rw [State.chip?_install hfound]
  split
  · rename_i hindex
    have hsame := fabric.distinct.eq hgate' hgate hindex.symm
    simp only [Gate.builtIn.injEq, ChipSpec.primitive.injEq] at hsame
    exact ⟨chip, rfl, hsame.2 ▸ hchip⟩
  · exact h.chips site' kind' hgate'

theorem answer (h : Bounded root draft state) (fabric : Fabric root draft)
    (hgate : .builtIn site spec ∈ root.all) :
    Bounded root draft ((state.clean site.index).respond draft.netlist site) := by
  obtain ⟨kind, chip, rfl, hanswered⟩ := exists_answered fabric h.sane hgate
  obtain ⟨found, hfound, hcontains⟩ := h.chips site kind hgate
  obtain rfl := Option.some.inj (hfound.symm.trans hanswered.chip_eq)
  exact .written fabric hgate hanswered.written h.inputs h.outputs
    (fun index pin hpin => Primitive.fits_answer_pin hcontains.held _ hpin) h.chips

theorem latch (h : Bounded root draft state) (fabric : Fabric root draft)
    (hgate : .builtIn site spec ∈ root.all) : Bounded root draft (state.latch site) := by
  have hlatched := latched_latch fabric h.sane hgate
  have hvalue : (state.latch site).value = state.value := by
    unfold State.value
    rw [hlatched.signals]
  refine ⟨hlatched.sane h.sane, fun site' kind hgate' => ?_, hvalue ▸ h.inputs, hvalue ▸ h.outputs⟩
  obtain ⟨chip, hchip, hcontains⟩ := h.chips site' kind hgate'
  rcases hlatched.chip hgate' hchip with hsame | ⟨inputs, hrisen⟩
  · exact ⟨chip, hsame, hcontains⟩
  · exact ⟨_, hrisen, hcontains.rise inputs⟩

theorem commit (h : Bounded root draft state) (fabric : Fabric root draft)
    (hgate : .builtIn site spec ∈ root.all) :
    Bounded root draft (state.commit draft.netlist site) := by
  obtain ⟨kind, chip, middle, rfl, hchip, hwritten, hcommit⟩ :=
    exists_committed fabric h.sane hgate
  obtain ⟨found, hfound, hcontains⟩ := h.chips site kind hgate
  obtain rfl := Option.some.inj (hfound.symm.trans hchip)
  obtain ⟨_, hkind, -, -, hlength, -⟩ := fabric.builtIns _ _ hgate
  obtain rfl := ChipSpec.primitive.inj hkind
  have hmiddle : Bounded root draft middle := by
    refine .written fabric hgate hwritten h.inputs h.outputs (fun index pin hpin => ?_)
      (h.chips_install fabric hgate hcontains.fall)
    exact hcontains.fits_showFallen (by rw [State.length_read, hlength]) hpin
      (h.outputs.getD_read hgate hlength hpin)
  rw [hcommit]
  exact ⟨hmiddle.sane.soil _, hmiddle.chips, hmiddle.inputs, hmiddle.outputs⟩

/-- Nothing that happens in the gates of a circuit gives a node a value that does not fit. -/
theorem endures (fabric : Fabric root draft) : Endures root draft.netlist (Bounded root draft) where
  clean h _ := ⟨h.sane.clean _, h.chips, h.inputs, h.outputs⟩
  soil h _ := ⟨h.sane.soil _, h.chips, h.inputs, h.outputs⟩
  answer h hgate := h.answer fabric hgate
  latch h hgate := h.latch fabric hgate
  commit h hgate := h.commit fabric hgate

theorem put (h : Bounded root draft state) (fabric : Fabric root draft) {node : Nat}
    (hnode : node ∈ root.inputs) {value : Word}
    (hfits : fits (draft.netlist.width node) value = true) :
    Bounded root draft (state.put draft.netlist node value) := by
  obtain ⟨hchanges, hvalue, -⟩ := changes_set fabric h.sane (.inl hnode) value
  refine ⟨hchanges.sane, fun site kind hgate => ?_, fun other hother => ?_,
    fun site kind hgate index other pin hpin hother => ?_⟩
  · rw [State.chip?, hchanges.chips]
    exact h.chips site kind hgate
  · by_cases hsame : other = node
    · rw [hsame, hvalue]
      exact hfits
    · rw [hchanges.value_eq fabric (.inl hother) hsame]
      exact h.inputs other hother
  · have hout := List.mem_of_getElem? hother
    rw [hchanges.value_eq fabric (.inr ⟨site, _, hgate, hout⟩) fun hsame =>
      fabric.entries_apart site _ other hgate hout (hsame ▸ hnode)]
    exact h.outputs site kind hgate index other pin hpin hother

end Bounded

def Operation.isChecked : Operation → Bool
  | .command (.drive (.set _ _)) | .command (.setNode _ _) => false
  | _ => true

namespace Circuit

variable {root : Gate} {draft : Draft} {circuit : Circuit} {sharing : Bool} {component : Component}

/-- What holds of a circuit whose inputs have been given values that fit. -/
structure Confined (root : Gate) (draft : Draft) (circuit : Circuit) : Prop where
  root_eq : circuit.root = root
  netlist_eq : circuit.netlist = draft.netlist
  fabric : Fabric root draft
  bounded : Bounded root draft circuit.state

namespace Confined

theorem stir (h : Confined root draft circuit) (step : Netlist → Nat → Gate → State → State)
    (hstep : ∀ {inv : State → Prop}, Endures root draft.netlist inv → ∀ {gate : Gate}
      {state : State} (limit : Nat), gate ∈ root.all → inv state →
      inv (step draft.netlist limit gate state)) {gate : Gate} (hgate : gate ∈ circuit.root.all) :
    Confined root draft (circuit.update (step circuit.netlist circuit.sweepLimit gate)) := by
  refine ⟨h.root_eq, h.netlist_eq, h.fabric, ?_⟩
  rw [h.root_eq] at hgate
  rw [h.netlist_eq]
  exact hstep (Bounded.endures h.fabric) _ hgate h.bounded

theorem relog (h : Confined root draft circuit) (probes : List (Nat × String)) (log : List Record) :
    Confined root draft (circuit.update fun state =>
      { state with signals := { state.signals with probes, log } }) :=
  ⟨h.root_eq, h.netlist_eq, h.fabric, h.bounded.sane.congr rfl rfl rfl, h.bounded.chips,
    h.bounded.inputs, h.bounded.outputs⟩

theorem note (h : Confined root draft circuit) (record : Record) :
    Confined root draft (circuit.note record) := h.relog circuit.state.signals.probes _

theorem eval (h : Confined root draft circuit) : Confined root draft circuit.eval :=
  h.stir Gate.eval (fun hinv => hinv.eval) (Gate.mem_all_self _)

theorem tick (h : Confined root draft circuit) : Confined root draft circuit.tick :=
  (h.note _).stir Gate.tick (fun hinv => hinv.tick) (Gate.mem_all_self _)

theorem tock (h : Confined root draft circuit) : Confined root draft circuit.tock :=
  (h.note _).stir Gate.tock (fun hinv => hinv.tock) (Gate.mem_all_self _)

theorem store (h : Confined root draft circuit) {node : Nat} (hnode : node ∈ circuit.root.inputs)
    {value : Word} (hfits : fits (circuit.netlist.width node) value = true) :
    Confined root draft (circuit.store node value) := by
  refine ⟨h.root_eq, h.netlist_eq, h.fabric, ?_⟩
  rw [h.root_eq] at hnode
  rw [h.netlist_eq] at hfits
  rw [Circuit.store, h.netlist_eq]
  exact h.bounded.put h.fabric hnode hfits

theorem atPath (h : Confined root draft circuit) {path : List Nat} {step : Gate → Circuit}
    (hstep : ∀ gate ∈ circuit.root.all, Confined root draft (step gate)) :
    Confined root draft (match circuit.gate? path with
      | some gate => step gate
      | none => circuit) := by
  split
  · rename_i gate hgate
    exact hstep gate (Gate.mem_all_iff_exists_path.mpr ⟨path, hgate⟩)
  · exact h

theorem perform (h : Confined root draft circuit) {command : Command}
    (hchecked : (Operation.command command).isChecked = true) :
    Confined root draft (circuit.perform command) := by
  cases command with
  | drive stimulus =>
    cases stimulus with
    | set name value => cases hchecked
    | eval => exact h.eval
    | tick => exact h.tick
    | tock => exact h.tock
    | pulse => exact h.tick.tock
  | setChecked name value =>
    refine Persists.edited h fun changed hset => ?_
    obtain ⟨node, hnode, hfits, rfl⟩ := exists_of_setChecked_eq_ok hset
    exact h.store (inputNode_mem hnode) hfits
  | setNode node value => cases hchecked
  | evalGate path => exact h.atPath fun gate => h.stir Gate.eval (fun hinv => hinv.eval)
  | rise => exact h.stir Gate.rise (fun hinv => hinv.rise) (Gate.mem_all_self _)
  | fall => exact h.stir Gate.fall (fun hinv => hinv.fall) (Gate.mem_all_self _)
  | probe name =>
    refine Persists.edited h fun changed hprobe => ?_
    unfold Circuit.probe at hprobe
    split at hprobe
    · cases hprobe
      exact h.relog _ circuit.state.signals.log
    · cases hprobe

theorem operate (h : Confined root draft circuit) {operation : Operation}
    (hchecked : operation.isChecked = true) : Confined root draft (circuit.operate operation) := by
  cases operation with
  | command command => exact h.perform hchecked
  | tickGate path => exact h.atPath fun gate => h.stir Gate.tick (fun hinv => hinv.tick)
  | tockGate path => exact h.atPath fun gate => h.stir Gate.tock (fun hinv => hinv.tock)

theorem operateAll (h : Confined root draft circuit) {operations : List Operation}
    (hchecked : ∀ operation ∈ operations, operation.isChecked = true) :
    Confined root draft (circuit.operateAll operations) := by
  induction operations generalizing circuit with
  | nil => exact h
  | cons operation operations ih =>
    exact ih (h.operate (hchecked operation List.mem_cons_self)) fun other hother =>
      hchecked other (List.mem_cons_of_mem _ hother)

end Confined

/-- A circuit that has just been made is confined. -/
theorem Begun.confined (h : Begun sharing component draft circuit) :
    Confined (component.rootPlaced sharing).result draft circuit := by
  obtain ⟨width, hdrafted⟩ := h.intact.drafted
  have hanswers := h.intact.answers h.atRest
  have hsane := h.intact.ready.sound.sane
  refine ⟨h.intact.ready.root_eq, h.intact.ready.netlist_eq, h.intact.ready.fabric, hsane,
    fun site kind hgate => ?_, fun node hnode => ?_, hanswers.outputsFit⟩
  · obtain ⟨chip, hchip, hrealizes⟩ := hsane.chips site kind hgate
    obtain ⟨path, hkind, hsite⟩ := Component.exists_primitive_of_mem hdrafted.wellWired hgate
    have hheld := (hanswers site kind hgate).1
    have hlatched := h.intact.latched path kind hkind
    rw [← h.intact.ready.root_eq] at hsite
    simp only [latches, Gate.stores, hsite, Gate.index, Gate.site, State.latched, hchip] at hlatched
    rw [State.held, hchip] at hheld
    exact ⟨chip, hchip, hrealizes, hheld, hlatched⟩
  · rw [← h.intact.ready.root_eq, h.intact.mem_inputs] at hnode
    have hzero : circuit.state.value node = 0 := h.inputs node hnode
    rw [hzero]
    exact fits_iff.mpr fun bit _ => BitVec.getLsbD_zero

/-- In the circuit of a standard component whose inputs are only given values that are checked, all
nodes have values that fit, whatever is done to its gates. A value is refused just if there is no
such input or it does not fit, and then nothing changes. -/
theorem values_fit {component : Component} (h : Standard component) :
    ∃ circuit, Circuit.ofComponent component = .ok circuit ∧ ∀ operations : List Operation,
      (∀ operation ∈ operations, operation.isChecked = true) →
      let now := circuit.operateAll operations
      (∀ node, Word.fits (now.netlist.width node) (now.value node) = true) ∧
      ∀ name value, ((∃ error, now.setChecked name value = .error error) ↔
          ∀ node, now.inputNode name = .ok node →
            Word.fits (now.netlist.width node) value = false) ∧
        ((∃ error, now.setChecked name value = .error error) →
          now.operate (.command (.setChecked name value)) = now) := by
  obtain ⟨draft, circuit, hbegun⟩ := exists_begun true h.wellWired
  refine ⟨circuit, hbegun.place_eq, fun operations hchecked => ?_⟩
  obtain ⟨width, hdrafted⟩ := hbegun.intact.drafted
  have hconfined := hbegun.confined.operateAll hchecked
  refine ⟨fun node => ?_, fun name value =>
    ⟨exists_setChecked_eq_error_iff, fun ⟨error, herror⟩ => ?_⟩⟩
  · rw [hconfined.netlist_eq]
    exact hdrafted.fits hconfined.bounded.sane hconfined.bounded.inputs
      hconfined.bounded.outputs node
  · rw [operate, perform, herror, edited]

/-- For example, a delay that is given a value of one bit, of which the next is refused, and whose
first register is clocked on its own. -/
theorem values_fit_delay :
    ∃ component circuit, Blueprint.delay.build = .ok component ∧
      Circuit.ofComponent component = .ok circuit ∧ ∀ node,
      Word.fits ((circuit.operateAll [.command (.setChecked "in" 1), .tickGate [0], .tockGate [0],
        .command (.setChecked "in" 2), .command (.drive .pulse)]).netlist.width node)
        ((circuit.operateAll [.command (.setChecked "in" 1), .tickGate [0], .tockGate [0],
          .command (.setChecked "in" 2), .command (.drive .pulse)]).value node) = true := by
  obtain ⟨component, hbuild, hstandard, -⟩ := Blueprint.exists_delay
  obtain ⟨circuit, hcircuit, hall⟩ := values_fit hstandard
  exact ⟨component, circuit, hbuild, hcircuit, (hall _ (by decide)).1⟩

end Circuit

end ClockedLogic
