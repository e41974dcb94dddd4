import ClockedLogic.Proofs.PinReading

/-!
What a circuit does, told by its pins and by what its primitives hold, without nodes and gates.
Bringing it up to date settles the pins and leaves alone what is held; on a rising edge of a settled
circuit all primitives latch what follows from their inputs, and on a falling edge they take it
over. So two circuits go on holding the same wherever they contain the same component, as long as
this component gets the same inputs in both.
-/

namespace ClockedLogic

open Word

theorem beyond_nil {α : Type} (path : List Nat) (found : List Nat → α) :
    beyond path found [] = found path := by rw [beyond, List.append_nil]

namespace Component

variable {component inner : Component} {path : List Nat}

theorem descend?_append (h : component.descend? path = some inner) (rest : List Nat) :
    component.descend? (path ++ rest) = inner.descend? rest := by
  induction path generalizing component with
  | nil => rw [List.nil_append, Option.some.inj h]
  | cons position path ih =>
    obtain ⟨part, hpart, h⟩ := exists_part_of_descend? h
    rw [List.cons_append, descend?_cons hpart]
    exact ih h

end Component

open Component

theorem WellWired.descend {component inner : Component} {path : List Nat}
    (h : WellWired component) (hinner : component.descend? path = some inner) :
    WellWired inner := by
  induction path generalizing component with
  | nil => exact Option.some.inj hinner ▸ h
  | cons position path ih =>
    obtain ⟨part, hpart, hinner⟩ := exists_part_of_descend? hinner
    exact ih (h.part (List.mem_of_getElem? hpart)) hinner

namespace Component

variable {sharing : Bool} {component inner : Component} {kind : Primitive} {path : List Nat}

/-- What a component that is placed on its own holds at the end of a path is placed there. -/
theorem exists_gate (h : component.descend? path = some inner) (sharing : Bool) :
    ∃ inputs outputs cursor, (component.rootPlaced sharing).result.descend? path =
      some (place sharing inner inputs outputs cursor).result := exists_descend? h _ _ _

theorem exists_builtIn (h : component.descend? path = some kind.component) (sharing : Bool) :
    ∃ site, (component.rootPlaced sharing).result.descend? path =
      some (.builtIn site (.primitive kind)) := by
  obtain ⟨inputs, outputs, cursor, hgate⟩ := exists_gate h sharing
  rw [Primitive.component, place] at hgate
  exact ⟨_, hgate⟩

theorem descend?_of_gate {gate : Gate}
    (h : (component.rootPlaced sharing).result.descend? path = some gate) :
    component.descend? path = some gate.component := by
  cases hinner : component.descend? path with
  | none => cases (descend?_place_eq_none hinner _ _ _).symm.trans h
  | some inner =>
    obtain ⟨inputs, outputs, cursor, hplaced⟩ := exists_gate hinner sharing
    rw [← Option.some.inj (hplaced.symm.trans h), (isPlaced _ _ _ _ _).component_eq]

theorem exists_primitive_of_mem (h : WellWired component) {site : Site}
    (hgate : .builtIn site (.primitive kind) ∈ (component.rootPlaced sharing).result.all) :
    ∃ path, component.descend? path = some kind.component ∧
      (component.rootPlaced sharing).result.descend? path =
        some (.builtIn site (.primitive kind)) := by
  obtain ⟨path, hpath⟩ := Gate.mem_all_iff_exists_path.mp hgate
  refine ⟨path, (descend?_of_gate hpath).trans ?_, hpath⟩
  cases (root_laid sharing h).of_mem_all hgate with
  | builtIn hcomponent => exact congrArg some hcomponent

end Component

namespace Circuit

def pinValues (circuit : Circuit) : PinValues := circuit.root.pinValues circuit.value

def stores (circuit : Circuit) : Stores := circuit.root.stores circuit.state.held

/-- What the primitives will hold after a falling edge. -/
def latches (circuit : Circuit) : Stores := circuit.root.stores circuit.state.latched

/-- What holds of the circuit of a component between any two stimuli. -/
structure Intact (sharing : Bool) (component : Component) (draft : Draft) (circuit : Circuit) :
    Prop where
  drafted : ∃ width, Drafted sharing component width draft
  ready : circuit.Ready (component.rootPlaced sharing).result draft
  held : component.CanHold circuit.stores
  latched : component.CanHold circuit.latches

variable {sharing : Bool} {component inner : Component} {draft : Draft} {circuit changed : Circuit}
  {kind : Primitive} {path : List Nat}

theorem stores_congr (hroot : changed.root = circuit.root)
    (hchips : changed.state.chips = circuit.state.chips) :
    changed.stores = circuit.stores ∧ changed.latches = circuit.latches := by
  have hchip : ∀ index, changed.state.chip? index = circuit.state.chip? index := by
    intro index
    rw [State.chip?, hchips, State.chip?]
  have hheld : changed.state.held = circuit.state.held := by
    funext index
    rw [State.held, hchip, State.held]
  have hlatched : changed.state.latched = circuit.state.latched := by
    funext index
    rw [State.latched, hchip, State.latched]
  rw [stores, latches, hroot, hheld, hlatched]
  exact ⟨rfl, rfl⟩

namespace Intact

theorem exists_site (h : Intact sharing component draft circuit)
    (hkind : component.descend? path = some kind.component) : ∃ site,
    .builtIn site (.primitive kind) ∈ (component.rootPlaced sharing).result.all ∧
      circuit.root.descend? path = some (.builtIn site (.primitive kind)) := by
  obtain ⟨site, hsite⟩ := exists_builtIn hkind sharing
  exact ⟨site, Gate.mem_all_iff_exists_path.mpr ⟨path, hsite⟩, h.ready.root_eq ▸ hsite⟩

theorem keep (h : Intact sharing component draft circuit)
    (hready : changed.Ready (component.rootPlaced sharing).result draft)
    (hchips : changed.state.chips = circuit.state.chips) :
    Intact sharing component draft changed := by
  obtain ⟨hstores, hlatches⟩ :=
    stores_congr (hready.root_eq.trans h.ready.root_eq.symm) hchips
  exact ⟨h.drafted, hready, hstores ▸ h.held, hlatches ▸ h.latched⟩

theorem answers (h : Intact sharing component draft circuit)
    (hrest : circuit.state.AtRest (component.rootPlaced sharing).result) :
    (component.rootPlaced sharing).result.Answers circuit.state.held circuit.value := by
  obtain ⟨width, hdrafted⟩ := h.drafted
  intro site kind hgate
  obtain ⟨path, hkind, hsite⟩ := exists_primitive_of_mem hdrafted.wellWired hgate
  have hhold := h.held path kind hkind
  simp only [stores, h.ready.root_eq, Gate.stores, hsite] at hhold
  exact ⟨hhold, h.ready.sound.sane.answer_eq h.ready.fabric hrest hgate⟩

theorem settled (h : Intact sharing component draft circuit)
    (hrest : circuit.state.AtRest (component.rootPlaced sharing).result) :
    Settled component circuit.stores circuit.pinValues := by
  obtain ⟨width, hdrafted⟩ := h.drafted
  rw [stores, pinValues, h.ready.root_eq]
  exact (spot_rootPlaced sharing hdrafted.wellWired.fitted).settled hdrafted.wellWired
    hdrafted.housed (hdrafted.rendered.carried h.ready.sound.sane) (h.answers hrest)

/-- If the inputs of the circuit fit, so do those of all parts at rest. -/
theorem fits_inputs (h : Intact sharing component draft circuit)
    (hrest : circuit.state.AtRest (component.rootPlaced sharing).result)
    (hinputs : ∀ (index : Nat) (pin : Pin), component.inputs[index]? = some pin →
      fits pin.width (circuit.value index) = true)
    (hinner : component.descend? path = some inner) {index : Nat} {pin : Pin}
    (hpin : inner.inputs[index]? = some pin) :
    fits pin.width (circuit.pinValues.pin path .input index) = true := by
  obtain ⟨width, hdrafted⟩ := h.drafted
  rw [pinValues, h.ready.root_eq]
  refine (spot_rootPlaced sharing hdrafted.wellWired.fitted).fits_pins hdrafted.wellWired
    hdrafted.housed (hdrafted.rendered.carried h.ready.sound.sane) (h.answers hrest).outputsFit
    (fun index node pin hpin hnode => ?_) hinner hpin
  obtain ⟨hlt, hsame⟩ := List.getElem?_eq_some_iff.mp hnode
  rw [List.getElem_range] at hsame
  exact hsame ▸ hinputs index pin hpin

theorem pinValues_eq_nil (h : Intact sharing component draft circuit)
    (hnone : component.descend? path = none) (role : PinRole) :
    circuit.pinValues path role = [] := by
  have hgate : (component.rootPlaced sharing).result.descend? path = none :=
    descend?_place_eq_none hnone _ _ _
  simp only [pinValues, h.ready.root_eq, Gate.pinValues, hgate]

/-- The inputs have the first nodes, in order. -/
theorem inputs_eq (h : Intact sharing component draft circuit) :
    circuit.root.inputs = List.range component.inputs.length := by
  rw [h.ready.root_eq]
  exact root_isPlaced.inputs_eq

theorem pin_input (h : Intact sharing component draft circuit) {index : Nat}
    (hlt : index < component.inputs.length) :
    circuit.pinValues.pin [] .input index = circuit.value index := by
  refine Gate.pin_pinValues rfl ?_
  rw [Gate.nodesOf, h.inputs_eq, List.getElem?_range hlt]

theorem mem_inputs (h : Intact sharing component draft circuit) {index : Nat} :
    index ∈ circuit.root.inputs ↔ index < component.inputs.length := by
  rw [h.inputs_eq, List.mem_range]

theorem width_eq (h : Intact sharing component draft circuit) {index : Nat} {pin : Pin}
    (hpin : component.inputs[index]? = some pin) : circuit.netlist.width index = pin.width := by
  obtain ⟨width, hdrafted⟩ := h.drafted
  have hhouse := hdrafted.housed _ (Gate.mem_all_self _) .input
  rw [root_isPlaced.component_eq, Gate.nodesOf, root_isPlaced.inputs_eq] at hhouse
  obtain ⟨hwidth, hlt⟩ :=
    hhouse.getElem? hpin (List.getElem?_range (List.getElem?_eq_some_iff.mp hpin).1)
  rw [h.ready.netlist_eq, hdrafted.executed.hasWidths.width_eq index hlt, hwidth]

theorem component_eq (h : Intact sharing component draft circuit) :
    circuit.component = component := by
  rw [Circuit.component, h.ready.root_eq]
  exact root_isPlaced.component_eq

/-- Two circuits of one component refuse the same names, and mean the same inputs by the others. -/
theorem inputNode_eq (h : Intact sharing component draft circuit) {sharing' : Bool} {draft' : Draft}
    {other : Circuit} (h' : Intact sharing' component draft' other) (name : String) :
    circuit.inputNode name = other.inputNode name := by
  simp only [inputNode, Gate.nodeAt?, Gate.nodesOf, h.component_eq, h'.component_eq, h.inputs_eq,
    h'.inputs_eq]

theorem note (h : Intact sharing component draft circuit) (record : Record) :
    Intact sharing component draft (circuit.note record) := h.keep (h.ready.note record) rfl

theorem eval (h : Intact sharing component draft circuit) :
    Intact sharing component draft circuit.eval := h.keep h.ready.eval h.ready.rested_eval.chips

theorem refreshed (h : Intact sharing component draft circuit) :
    Intact sharing component draft circuit.refreshed :=
  h.keep h.ready.refreshed h.ready.rested_refreshed.chips

theorem store (h : Intact sharing component draft circuit) {node : Nat}
    (hnode : node ∈ circuit.root.inputs) (value : Word) :
    Intact sharing component draft (circuit.store node value) :=
  h.keep (h.ready.store hnode value) rfl

theorem value_store (h : Intact sharing component draft circuit) {node other : Nat}
    (hnode : node ∈ circuit.root.inputs) (hother : other ∈ circuit.root.inputs) (value : Word) :
    (circuit.store node value).value other =
      if other = node then value else circuit.value other := by
  rw [h.ready.root_eq] at hnode hother
  obtain ⟨hchanges, hvalue, -⟩ :=
    changes_set h.ready.fabric h.ready.sound.sane (.inl hnode) value
  show (circuit.store node value).state.value other = _
  rw [h.ready.state_store]
  split
  · rename_i hsame
    rw [hsame, hvalue]
  · rename_i hne
    exact hchanges.value_eq h.ready.fabric (.inl hother) hne

/-- Until the circuit is brought up to date, inputs are all that changes. -/
theorem driven_store (h : Intact sharing component draft circuit) {node : Nat}
    (hnode : node ∈ circuit.root.inputs) (value : Word) (path : List Nat) {role : PinRole}
    (hrole : role ≠ .input) :
    (circuit.store node value).pinValues path role = circuit.pinValues path role := by
  obtain ⟨width, hdrafted⟩ := h.drafted
  rw [h.ready.root_eq] at hnode
  obtain ⟨hchanges, -⟩ := changes_set h.ready.fabric h.ready.sound.sane (.inl hnode) value
  have hroot : (circuit.store node value).root = (component.rootPlaced sharing).result :=
    h.ready.root_eq
  simp only [pinValues, hroot, h.ready.root_eq, Gate.pinValues]
  cases hgate : (component.rootPlaced sharing).result.descend? path with
  | none => rfl
  | some gate =>
    refine List.map_congr_left fun other hother => by_contra fun hchanged => ?_
    refine hdrafted.driven_not_changed hnode hchanges.spread
      (Gate.mem_all_iff_exists_path.mpr ⟨path, hgate⟩) hrole hother ?_
    rwa [← h.ready.state_store]

theorem stored_rise (h : Intact sharing component draft circuit)
    (hrest : circuit.state.AtRest (component.rootPlaced sharing).result)
    (hkind : component.descend? path = some kind.component) :
    circuit.rise.stores path = circuit.stores path ∧ circuit.rise.latches path =
      kind.next (circuit.stores path) (circuit.pinValues path .input) := by
  obtain ⟨site, hgate, hsite⟩ := h.exists_site hkind
  have hsite' : circuit.rise.root.descend? path = some (.builtIn site (.primitive kind)) := hsite
  simp only [stores, latches, pinValues, Gate.stores, Gate.pinValues, hsite, hsite']
  exact h.ready.stored_rise hrest hgate

theorem rise (h : Intact sharing component draft circuit)
    (hrest : circuit.state.AtRest (component.rootPlaced sharing).result) :
    Intact sharing component draft circuit.rise := by
  refine ⟨h.drafted, h.ready.rise, fun path kind hkind => ?_, fun path kind hkind => ?_⟩
  · rw [(h.stored_rise hrest hkind).1]
    exact h.held path kind hkind
  · rw [(h.stored_rise hrest hkind).2]
    exact (h.held path kind hkind).next _

theorem stored_fall (h : Intact sharing component draft circuit)
    (hkind : component.descend? path = some kind.component) :
    circuit.fall.stores path = circuit.latches path ∧
      circuit.fall.latches path = circuit.latches path := by
  obtain ⟨site, hgate, hsite⟩ := h.exists_site hkind
  have hsite' : circuit.fall.root.descend? path = some (.builtIn site (.primitive kind)) := hsite
  simp only [stores, latches, Gate.stores, hsite, hsite']
  exact h.ready.stored_fall hgate

theorem fall (h : Intact sharing component draft circuit) :
    Intact sharing component draft circuit.fall := by
  refine ⟨h.drafted, h.ready.fall, fun path kind hkind => ?_, fun path kind hkind => ?_⟩
  · rw [(h.stored_fall hkind).1]
    exact h.latched path kind hkind
  · rw [(h.stored_fall hkind).2]
    exact h.latched path kind hkind

theorem tick (h : Intact sharing component draft circuit) :
    Intact sharing component draft circuit.tick :=
  (h.note _).refreshed.rise (h.note _).ready.rested_refreshed.atRest

theorem tock (h : Intact sharing component draft circuit) :
    Intact sharing component draft circuit.tock := (h.note _).fall.refreshed

theorem drive (h : Intact sharing component draft circuit) (stimulus : Stimulus) :
    Intact sharing component draft (circuit.drive stimulus) := by
  cases stimulus with
  | set name value =>
    rw [Circuit.drive]
    cases hset : circuit.set name value with
    | error error => exact h
    | ok changed =>
      obtain ⟨node, hnode, rfl⟩ := exists_of_set_eq_ok hset
      exact h.store hnode value
  | eval => exact h.eval
  | tick => exact h.tick
  | tock => exact h.tock
  | pulse => exact h.tick.tock

theorem driveAll (h : Intact sharing component draft circuit) (stimuli : List Stimulus) :
    Intact sharing component draft (circuit.driveAll stimuli) := by
  induction stimuli generalizing circuit with
  | nil => exact h
  | cons stimulus stimuli ih => exact ih (h.drive stimulus)

/-- After anything but an edit a circuit is at rest. -/
theorem atRest_driveAll (h : Intact sharing component draft circuit)
    (hrest : circuit.state.AtRest (component.rootPlaced sharing).result) {stimuli : List Stimulus}
    (hsettles : stimuli.getLast?.all Stimulus.settles = true) :
    (circuit.driveAll stimuli).state.AtRest (component.rootPlaced sharing).result := by
  cases stimuli using List.reverseRecOn with
  | nil => exact hrest
  | append_singleton stimuli stimulus =>
    rw [List.getLast?_append, List.getLast?_singleton, Option.some_or, Option.all_some] at hsettles
    rw [Circuit.driveAll, List.foldl_append]
    exact (h.driveAll stimuli).ready.atRest_drive hsettles

end Intact

/-- What holds of the circuit of a component when it has just been made. -/
structure Begun (sharing : Bool) (component : Component) (draft : Draft) (circuit : Circuit) :
    Prop where
  place_eq : Circuit.place sharing component = .ok circuit
  intact : Intact sharing component draft circuit
  atRest : circuit.state.AtRest (component.rootPlaced sharing).result
  clear : ∀ path (kind : Primitive), component.descend? path = some kind.component →
    circuit.stores path = kind.clear ∧ circuit.latches path = kind.clear
  inputs : ∀ index < component.inputs.length, circuit.value index = 0

theorem exists_begun (sharing : Bool) (h : WellWired component) :
    ∃ draft circuit, Begun sharing component draft circuit := by
  obtain ⟨draft, initial, hmade⟩ := exists_made sharing h
  have hrested := hmade.ready.rested_eval
  have hclear : ∀ path (kind : Primitive), component.descend? path = some kind.component →
      initial.stores path = kind.clear ∧ initial.latches path = kind.clear := by
    intro path kind hkind
    obtain ⟨site, hsite⟩ := exists_builtIn hkind sharing
    have hgate := Gate.mem_all_iff_exists_path.mpr ⟨path, hsite⟩
    simp only [stores, latches, Gate.stores, hmade.ready.root_eq]
    rw [show (component.placeRoot sharing).result = (component.rootPlaced sharing).result from rfl,
      hsite]
    exact hmade.fresh.held site kind hgate
  have hintact : Intact sharing component draft initial := by
    refine ⟨hmade.exists_drafted h, hmade.ready, fun path kind hkind => ?_,
      fun path kind hkind => ?_⟩
    · rw [(hclear path kind hkind).1]
      exact kind.canHold_clear
    · rw [(hclear path kind hkind).2]
      exact kind.canHold_clear
  obtain ⟨hstores, hlatches⟩ :=
    @stores_congr initial (initial.eval.note initial.eval.placeRecord) rfl hrested.chips
  refine ⟨draft, _, hmade.place_eq, hintact.eval.note _, hrested.atRest.congr rfl rfl rfl,
    ?_, fun index hlt => ?_⟩
  · rw [hstores, hlatches]
    exact hclear
  · have hmem : index ∈ (component.rootPlaced sharing).result.inputs := by
      rw [root_isPlaced.inputs_eq]
      exact List.mem_range.mpr hlt
    exact (hrested.entries index hmem).trans (hmade.fresh.entries index hmem)

end Circuit

/-- How the values of a component look as those of another one, and where the paths of the other one
lead in it. -/
structure View where
  path : List Nat → List Nat
  values : PinValues → PinValues

namespace View

def stores (view : View) (stores : Stores) : Stores := fun path => stores (view.path path)

def beyond (path : List Nat) : View := ⟨(path ++ ·), ClockedLogic.beyond path⟩

theorem values_beyond_nil (path : List Nat) (values : PinValues) :
    (beyond path).values values [] = values path := beyond_nil path values

end View

/-- Whether a component looks like another one: the primitives are the same, they read the same, and
what is settled looks settled. -/
structure Component.Shows (component inner : Component) (view : View) : Prop where
  primitive : ∀ path (kind : Primitive), inner.descend? path = some kind.component →
    component.descend? (view.path path) = some kind.component
  reads : ∀ path (kind : Primitive), inner.descend? path = some kind.component →
    ∀ values : PinValues, view.values values path .input = values (view.path path) .input
  settled : ∀ {stores : Stores} {values : PinValues}, Settled component stores values →
    Settled inner (view.stores stores) (view.values values)

namespace Component.Shows

variable {component inner : Component} {view : View} {path : List Nat}

/-- Whatever is inside a component shows on its own. -/
theorem beyond (h : component.descend? path = some inner) :
    component.Shows inner (.beyond path) where
  primitive rest _ hkind := (descend?_append h rest).trans hkind
  reads _ _ _ _ := rfl
  settled hsettled := hsettled.descend h

theorem canHold (h : component.Shows inner view) {stores : Stores}
    (hhold : component.CanHold stores) : inner.CanHold (view.stores stores) :=
  fun path kind hkind => hhold _ kind (h.primitive path kind hkind)

end Component.Shows

open Circuit

/-- A circuit, and one of a component that it looks like, which hold the same. -/
structure Abreast (sharing sharing' : Bool) (component inner : Component) (view : View)
    (draft draft' : Draft) (whole alone : Circuit) : Prop where
  shows : component.Shows inner view
  intact : Intact sharing component draft whole
  intact' : Intact sharing' inner draft' alone
  held : inner.HoldsSame (view.stores whole.stores) alone.stores
  latched : inner.HoldsSame (view.stores whole.latches) alone.latches

/-- Whether the inputs of a component carry the same in two circuits, as far as they are wide. -/
def SameInputs (inner : Component) (view : View) (whole alone : Circuit) : Prop :=
  ∀ (index : Nat) (pin : Pin), inner.inputs[index]? = some pin →
    Alike pin.width ((view.values whole.pinValues).pin [] .input index)
      (alone.pinValues.pin [] .input index)

namespace Abreast

variable {sharing sharing' : Bool} {component inner : Component} {view : View}
  {draft draft' : Draft} {whole alone whole' alone' : Circuit}

theorem of_shows (hshows : component.Shows inner view) (h : Begun sharing component draft whole)
    (h' : Begun sharing' inner draft' alone) :
    Abreast sharing sharing' component inner view draft draft' whole alone := by
  refine ⟨hshows, h.intact, h'.intact, fun path kind hkind => ?_, fun path kind hkind => ?_⟩
  · have hwhole := h.clear _ kind (hshows.primitive path kind hkind)
    exact hwhole.1.trans (h'.clear path kind hkind).1.symm
  · have hwhole := h.clear _ kind (hshows.primitive path kind hkind)
    exact hwhole.2.trans (h'.clear path kind hkind).2.symm

theorem of_begun {path : List Nat} (hinner : component.descend? path = some inner)
    (h : Begun sharing component draft whole) (h' : Begun sharing' inner draft' alone) :
    Abreast sharing sharing' component inner (.beyond path) draft draft' whole alone :=
  of_shows (.beyond hinner) h h'

theorem keep (h : Abreast sharing sharing' component inner view draft draft' whole alone)
    (hwhole : Intact sharing component draft whole')
    (hchips : whole'.state.chips = whole.state.chips)
    (halone : Intact sharing' inner draft' alone')
    (hchips' : alone'.state.chips = alone.state.chips) :
    Abreast sharing sharing' component inner view draft draft' whole' alone' := by
  obtain ⟨hstores, hlatches⟩ := stores_congr
    (hwhole.ready.root_eq.trans h.intact.ready.root_eq.symm) hchips
  obtain ⟨hstores', hlatches'⟩ := stores_congr
    (halone.ready.root_eq.trans h.intact'.ready.root_eq.symm) hchips'
  exact ⟨h.shows, hwhole, halone, hstores ▸ hstores' ▸ h.held, hlatches ▸ hlatches' ▸ h.latched⟩

theorem note (h : Abreast sharing sharing' component inner view draft draft' whole alone)
    (record record' : Record) : Abreast sharing sharing' component inner view draft draft'
      (whole.note record) (alone.note record') :=
  h.keep (h.intact.note record) rfl (h.intact'.note record') rfl

theorem refreshed (h : Abreast sharing sharing' component inner view draft draft' whole alone) :
    Abreast sharing sharing' component inner view draft draft' whole.refreshed alone.refreshed :=
  h.keep h.intact.refreshed h.intact.ready.rested_refreshed.chips h.intact'.refreshed
    h.intact'.ready.rested_refreshed.chips

theorem eval (h : Abreast sharing sharing' component inner view draft draft' whole alone) :
    Abreast sharing sharing' component inner view draft draft' whole.eval alone.eval :=
  h.keep h.intact.eval h.intact.ready.rested_eval.chips h.intact'.eval
    h.intact'.ready.rested_eval.chips

theorem fall (h : Abreast sharing sharing' component inner view draft draft' whole alone) :
    Abreast sharing sharing' component inner view draft draft' whole.fall alone.fall := by
  refine ⟨h.shows, h.intact.fall, h.intact'.fall, fun path kind hkind => ?_,
    fun path kind hkind => ?_⟩
  · have hwhole := h.intact.stored_fall (h.shows.primitive path kind hkind)
    exact hwhole.1.trans ((h.latched path kind hkind).trans (h.intact'.stored_fall hkind).1.symm)
  · have hwhole := h.intact.stored_fall (h.shows.primitive path kind hkind)
    exact hwhole.2.trans ((h.latched path kind hkind).trans (h.intact'.stored_fall hkind).2.symm)

section Rest

variable (h : Abreast sharing sharing' component inner view draft draft' whole alone)
  (hrest : whole.state.AtRest (component.rootPlaced sharing).result)
  (hrest' : alone.state.AtRest (inner.rootPlaced sharing').result)
  (hinputs : SameInputs inner view whole alone)

include h hrest hrest' hinputs

/-- At rest the component has the same values in both circuits if its inputs have. -/
theorem sameValues : SameValues inner (view.values whole.pinValues) alone.pinValues := by
  obtain ⟨width, hdrafted⟩ := h.intact'.drafted
  exact hdrafted.wellWired.sameValues (h.shows.settled (h.intact.settled hrest))
    (h.intact'.settled hrest') h.held (h.shows.canHold h.intact.held) hinputs

theorem rise :
    Abreast sharing sharing' component inner view draft draft' whole.rise alone.rise := by
  have hsame := h.sameValues hrest hrest' hinputs
  refine ⟨h.shows, h.intact.rise hrest, h.intact'.rise hrest', fun path kind hkind => ?_,
    fun path kind hkind => ?_⟩
  · have hwhole := h.intact.stored_rise hrest (h.shows.primitive path kind hkind)
    exact hwhole.1.trans
      ((h.held path kind hkind).trans (h.intact'.stored_rise hrest' hkind).1.symm)
  · have hwhole := h.intact.stored_rise hrest (h.shows.primitive path kind hkind)
    rw [View.stores, hwhole.2, (h.intact'.stored_rise hrest' hkind).2, ← h.held path kind hkind,
      ← h.shows.reads path kind hkind whole.pinValues]
    exact Primitive.next_congr (.of_pins fun index pin hpin => hsame.inputs path _ hkind index pin
      hpin) (h.intact.held _ kind (h.shows.primitive path kind hkind))

end Rest
end Abreast
end ClockedLogic
