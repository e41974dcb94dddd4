import ClockedLogic.Proofs.PartPlacement

/-!
Placing a fitted component cannot fail: all of its statements are feasible, and every pin of every
gate has a node of its width.
-/

namespace ClockedLogic

namespace Scope

variable {width : Nat → Nat} {bound : Nat} {scope : Scope}

def nodesOf (scope : Scope) : PinRole → List Nat
  | .input => scope.inputs
  | .output => scope.outputs
  | .internal => scope.internals

theorem node?_pin (role : PinRole) (index : Nat) :
    scope.node? (.pin role index) = (scope.nodesOf role)[index]? := by
  cases role <;> rfl

theorem HousePins.getElem? {pins : List Pin} {nodes : List Nat}
    (h : HousePins width bound pins nodes)
    {index : Nat} {pin : Pin} {node : Nat} (hpin : pins[index]? = some pin)
    (hnode : nodes[index]? = some node) : width node = pin.width ∧ node < bound := by
  induction h generalizing index with
  | nil => simp at hpin
  | cons hfirst _ ih =>
    cases index with
    | zero =>
      rw [← Option.some.inj hpin, ← Option.some.inj hnode]
      exact hfirst
    | succ index => exact ih hpin hnode

theorem HousePins.lt_of_mem {pins : List Pin} {nodes : List Nat}
    (h : HousePins width bound pins nodes)
    {node : Nat} (hnode : node ∈ nodes) : node < bound := by
  induction h with
  | nil => cases hnode
  | cons hfirst _ ih =>
    rcases List.mem_cons.mp hnode with rfl | hnode
    · exact hfirst.2
    · exact ih hnode

/-- Nodes that have just been added with the widths of pins house these pins. -/
theorem housePins_range' {size : Nat} {pins : List Pin}
    (h : Statement.Throughout (Statement.HasWidth width) size (pins.map (.node ·.width))) :
    HousePins width (size + pins.length) pins (List.range' size pins.length) := by
  induction pins generalizing size with
  | nil => exact .nil
  | cons pin pins ih =>
    obtain ⟨hwidth, hrest⟩ := h
    rw [List.length_cons, List.range'_succ]
    refine .cons ⟨hwidth, by omega⟩ ((ih hrest).mono ?_)
    simp only [Statement.added]
    omega

end Scope

open Scope

variable {sharing : Bool} {scope : Scope} {width : Nat → Nat}

/-- A wire between pins of one width matches, whichever way it leads. -/
theorem matches_of_pins {pinsOf : PinRole → List Pin} {wire : Wire} {bound : Nat}
    (howner : ∀ role, HousePins width bound (pinsOf role) (scope.nodesOf role))
    (horder : ∀ role, PinsInOrder role (pinsOf role)) {pin far : Pin} (hlow : 1 ≤ pin.width)
    (hhigh : pin.width ≤ 16) {role : PinRole} {index : Nat} (hwire : wire.owner = .pin role index)
    (hfar : (pinsOf role)[index]? = some far)
    (hwidths : pin.widthOf wire.partBits = far.widthOf wire.ownerBits) :
    Matches width bound scope pin wire := by
  obtain ⟨-, -, hfarLow, hfarHigh⟩ := horder role _ _ hfar
  have hends : ∀ node, scope.node? wire.owner = some node →
      width node = far.width ∧ node < bound := by
    intro node hnode
    rw [hwire, node?_pin] at hnode
    exact (howner role).getElem? hfar hnode
  refine ⟨fun node hnode => (hends node hnode).2, fun node hnode => ?_, fun node hnode hwhole => ?_⟩
  · rw [Pin.width_spanOf hlow hhigh, hwidths, ← Pin.width_spanOf hfarLow hfarHigh,
      spanAt_eq (hends node hnode).1]
  · simp only [Wire.isWhole, Bool.and_eq_true, Option.isNone_iff_eq_none] at hwhole
    rw [hwhole.1, hwhole.2] at hwidths
    rw [(hends node hnode).1]
    exact hwidths.symm

theorem Wire.Fits.matches {part : Component} {pinsOf : PinRole → List Pin} {wire : Wire}
    (h : wire.Fits part pinsOf) {bound : Nat}
    (howner : ∀ role, HousePins width bound (pinsOf role) (scope.nodesOf role))
    (horder : ∀ role, PinsInOrder role (pinsOf role))
    (hpart : ∀ role, PinsInOrder role (part.pinsOf role)) {role : PinRole} {pin : Pin}
    (hrole : wire.partRole = role) (hpin : (part.pinsOf role)[wire.partIndex]? = some pin) :
    Matches width bound scope pin wire := by
  obtain ⟨-, -, hlow, hhigh⟩ := hpart role _ _ hpin
  cases h with
  | @tied _ _ _ constant _ _ hconstant =>
    have hnone : ∀ node, scope.node? constant = some node → False := by
      intro node hnode
      rcases hconstant with rfl | rfl <;> cases hnode
    exact ⟨fun node hnode => (hnone node hnode).elim, fun node hnode => (hnone node hnode).elim,
      fun node hnode => (hnone node hnode).elim⟩
  | read hpin' _ _ hfar _ hwidths =>
    subst hrole
    obtain rfl : _ = pin := Option.some.inj (hpin'.symm.trans hpin)
    exact matches_of_pins howner horder hlow hhigh rfl hfar hwidths
  | drive hpin' _ _ hfar _ hwidths =>
    subst hrole
    obtain rfl : _ = pin := Option.some.inj (hpin'.symm.trans hpin)
    exact matches_of_pins howner horder hlow hhigh rfl hfar hwidths

theorem pinsMatch {part : Part Component} {pinsOf : PinRole → List Pin} {bound : Nat}
    (hfits : ∀ wire ∈ part.wires, wire.Fits part.component pinsOf)
    (howner : ∀ role, HousePins width bound (pinsOf role) (scope.nodesOf role))
    (horder : ∀ role, PinsInOrder role (pinsOf role)) (hpart : Fitted part.component)
    (role : PinRole) :
    PinsMatch width bound scope part.wires (part.component.pinsOf role) := by
  intro pin hpin
  obtain ⟨index, hindex⟩ := List.mem_iff_getElem?.mp hpin
  obtain ⟨hrole, rfl, -, hhigh⟩ := hpart.pinsInOrder role _ _ hindex
  refine ⟨hhigh, fun wire hwire hwireRole hwireIndex => ?_⟩
  refine (hfits wire hwire).matches howner horder hpart.pinsInOrder (hwireRole.trans hrole) ?_
  rw [hwireIndex]
  exact hindex

/-- Nodes for pins can be added at any time. -/
theorem feasible_nodes {role : PinRole} {pins : List Pin} (h : PinsInOrder role pins)
    (size : Nat) : Statement.Throughout (Statement.IsFeasible width) size
      (pins.map (.node ·.width)) := by
  refine Statement.throughout_of_always (fun statement hstatement => ?_) size
  obtain ⟨pin, hpin, rfl⟩ := List.mem_map.mp hstatement
  obtain ⟨index, hindex⟩ := List.mem_iff_getElem?.mp hpin
  exact fun _ => (h _ _ hindex).2.2.2

namespace Component

def Housed (width : Nat → Nat) (bound : Nat) (gate : Gate) : Prop :=
  ∀ role, HousePins width bound (gate.component.pinsOf role) (gate.nodesOf role)

theorem Housed.mono {gate : Gate} {bound bound' : Nat} (h : Housed width bound gate)
    (hle : bound ≤ bound') : Housed width bound' gate := fun role => (h role).mono hle

/-- What a component has to promise its owner: if its pins have nodes of their widths, placing
it is feasible. -/
def CanBePlaced (sharing : Bool) (width : Nat → Nat) (component : Component) : Prop :=
  ∀ inputs outputs cursor, HousePins width cursor.nodes component.inputs inputs →
    HousePins width cursor.nodes component.outputs outputs →
    Statement.Throughout (Statement.HasWidth width) cursor.nodes
      (component.place sharing inputs outputs cursor).statements →
    Statement.Throughout (Statement.IsFeasible width) cursor.nodes
      (component.place sharing inputs outputs cursor).statements ∧
    ∀ gate ∈ (component.place sharing inputs outputs cursor).result.all,
      Housed width (component.place sharing inputs outputs cursor).cursor.nodes gate

theorem PartPlaced.feasible {placed : PlacedPart} (h : PartPlaced sharing scope placed)
    {pinsOf : PinRole → List Pin} (hfitted : Fitted placed.part.component)
    (hplace : CanBePlaced sharing width placed.part.component)
    (hfits : ∀ wire ∈ placed.part.wires, wire.Fits placed.part.component pinsOf)
    (horder : ∀ role, PinsInOrder role (pinsOf role))
    (howner : ∀ role, HousePins width placed.start.nodes (pinsOf role) (scope.nodesOf role))
    (hwidths : Statement.Throughout (Statement.HasWidth width) placed.start.nodes
      placed.statements) :
    Statement.Throughout (Statement.IsFeasible width) placed.start.nodes placed.statements ∧
    ∀ gate ∈ placed.gate.result.all, Housed width placed.gate.cursor.nodes gate := by
  obtain ⟨hle, hle', -⟩ := h.le
  have hinputs := h.inputs.nodes
  have houtputs := h.outputs.nodes
  rw [PlacedPart.statements, Statement.throughout_append, Statement.throughout_append,
    Statement.nodeCount_append, ← Nat.add_assoc, ← hinputs, ← houtputs] at hwidths ⊢
  obtain ⟨⟨hwidthsIn, hwidthsOut⟩, hwidthsGate⟩ := hwidths
  have hin : Statement.Throughout (Statement.IsFeasible width) placed.start.nodes
      placed.inputs.statements ∧
      HousePins width placed.inputs.cursor.nodes placed.part.component.inputs
        placed.inputs.result := by
    rw [h.inputs_eq] at hwidthsIn ⊢
    exact placePins_feasible (pinsMatch hfits howner horder hfitted .input) hwidthsIn
  have hout : Statement.Throughout (Statement.IsFeasible width) placed.inputs.cursor.nodes
      placed.outputs.statements ∧
      HousePins width placed.outputs.cursor.nodes placed.part.component.outputs
        placed.outputs.result := by
    rw [h.outputs_eq] at hwidthsOut ⊢
    exact placePins_feasible
      (pinsMatch hfits (fun role => (howner role).mono hle) horder hfitted .output) hwidthsOut
  rw [h.gate_eq] at hwidthsGate ⊢
  obtain ⟨hgate, hhoused⟩ := hplace _ _ _ (hin.2.mono hle') hout.2 hwidthsGate
  exact ⟨⟨⟨hin.1, hout.1⟩, hgate⟩, hhoused⟩

theorem feasible_placeParts {pinsOf : PinRole → List Pin} {parts : List (Part Component)}
    (hfitted : ∀ part ∈ parts, Fitted part.component)
    (hplace : ∀ part ∈ parts, CanBePlaced sharing width part.component)
    (hfits : ∀ part ∈ parts, ∀ wire ∈ part.wires, wire.Fits part.component pinsOf)
    (horder : ∀ role, PinsInOrder role (pinsOf role)) (cursor : Cursor)
    (howner : ∀ role, HousePins width cursor.nodes (pinsOf role) (scope.nodesOf role))
    (hwidths : Statement.Throughout (Statement.HasWidth width) cursor.nodes
      (placeParts sharing scope parts cursor).statements) :
    Statement.Throughout (Statement.IsFeasible width) cursor.nodes
      (placeParts sharing scope parts cursor).statements ∧
    ∀ gate ∈ Gate.allOf (placeParts sharing scope parts cursor).result,
      Housed width (placeParts sharing scope parts cursor).cursor.nodes gate := by
  induction parts generalizing cursor with
  | nil =>
    unfold placeParts
    exact ⟨trivial, fun gate hgate => by cases hgate⟩
  | cons part parts ih =>
    have hplaced := partPlaced sharing scope part cursor
    have hle := hplaced.le
    have hstart : (placePart sharing scope part cursor).start = cursor := rfl
    have hnodes := (@arePlaced sharing scope parts
      (fun _ _ => isPlaced sharing _) (placePart sharing scope part cursor).gate.cursor).nodes
    have hcount : (placePart sharing scope part cursor).gate.cursor.nodes = cursor.nodes +
        Statement.nodeCount (placePart sharing scope part cursor).statements := by
      have hinputs := hplaced.inputs.nodes
      rw [hplaced.isPlaced.nodes, hplaced.outputs.nodes, hinputs, hstart, PlacedPart.statements,
        Statement.nodeCount_append, Statement.nodeCount_append]
      omega
    rw [placeParts_cons] at hwidths ⊢
    simp only [Statement.throughout_append, ← hcount] at hwidths ⊢
    rw [hstart] at hle
    obtain ⟨hthis, hhoused⟩ := hplaced.feasible (hfitted part List.mem_cons_self)
      (hplace part List.mem_cons_self) (hfits part List.mem_cons_self) horder howner hwidths.1
    obtain ⟨hrest, hhousedRest⟩ := ih
      (fun other hother => hfitted other (List.mem_cons_of_mem _ hother))
      (fun other hother => hplace other (List.mem_cons_of_mem _ hother))
      (fun other hother => hfits other (List.mem_cons_of_mem _ hother))
      _ (fun role => (howner role).mono (by omega)) hwidths.2
    refine ⟨⟨hthis, hrest⟩, fun gate hgate => ?_⟩
    rcases List.mem_append.mp hgate with hgate | hgate
    · exact (hhoused gate hgate).mono (by omega)
    · exact hhousedRest gate hgate

theorem canBePlaced {component : Component} (h : Fitted component) :
    CanBePlaced sharing width component := by
  induction h with
  | builtIn =>
    intro inputs outputs cursor hinputs houtputs _
    rw [place]
    refine ⟨Statement.throughout_of_forall fun statement hstatement => ?_, fun gate hgate => ?_⟩
    · obtain ⟨node, hnode, rfl⟩ := List.mem_map.mp hstatement
      exact ⟨rfl, hinputs.lt_of_mem hnode⟩
    · rw [Gate.all, List.mem_singleton] at hgate
      subst hgate
      intro role
      cases role with
      | input => exact hinputs
      | output => exact houtputs
      | internal => exact .nil
  | composite hparts hfitting ih =>
    rename_i interface internals parts dependencies
    intro inputs outputs cursor hinputs houtputs hwidths
    have hparts' := @arePlaced sharing
      ⟨inputs, outputs, (List.range internals.length).map (cursor.nodes + ·)⟩
      parts (fun _ _ => isPlaced sharing _)
      { cursor with nodes := cursor.nodes + internals.length }
    have hnodes := hparts'.nodes
    simp only at hnodes
    unfold place at hwidths ⊢
    simp only [Statement.throughout_append, Statement.nodeCount_append, Statement.nodeCount_nodes]
      at hwidths ⊢
    obtain ⟨⟨hwidthsOwn, hwidthsParts⟩, -⟩ := hwidths
    have hinternals := housePins_range' hwidthsOwn
    rw [List.range'_eq_map_range] at hinternals
    have howner : ∀ role, HousePins width (cursor.nodes + internals.length)
        ((composite interface internals parts dependencies).pinsOf role)
        (Scope.nodesOf ⟨inputs, outputs, (List.range internals.length).map (cursor.nodes + ·)⟩
          role) := by
      intro role
      cases role with
      | input => exact hinputs.mono (Nat.le_add_right _ _)
      | output => exact houtputs.mono (Nat.le_add_right _ _)
      | internal => exact hinternals
    have hfitted := Fitted.composite hparts hfitting
    obtain ⟨hfeasible, hhoused⟩ := feasible_placeParts hparts ih hfitting.fits
      hfitted.pinsInOrder { cursor with nodes := cursor.nodes + internals.length } howner
      hwidthsParts
    refine ⟨⟨⟨?_, hfeasible⟩, ?_⟩, fun gate hgate => ?_⟩
    · exact feasible_nodes hfitting.internals _
    · apply Statement.throughout_of_forall
      intro statement hstatement
      obtain ⟨node, hnode, rfl⟩ := List.mem_map.mp hstatement
      exact ⟨rfl, Nat.lt_of_lt_of_le (hinputs.lt_of_mem hnode) (by omega)⟩
    · unfold Gate.all at hgate
      rcases List.mem_append.mp hgate with hgate | hgate
      · exact hhoused gate hgate
      · rw [List.mem_singleton] at hgate
        subst hgate
        intro role
        have hle : cursor.nodes + internals.length ≤ (placeParts sharing
            ⟨inputs, outputs, (List.range internals.length).map (cursor.nodes + ·)⟩ parts
            { cursor with nodes := cursor.nodes + internals.length }).cursor.nodes := by omega
        cases role with
        | input => exact (howner .input).mono hle
        | output => exact (howner .output).mono hle
        | internal => exact (howner .internal).mono hle

def widthsOf (statements : List Statement) : List Nat :=
  statements.filterMap fun
    | .node width => some width
    | _ => none

theorem length_widthsOf (statements : List Statement) :
    (widthsOf statements).length = Statement.nodeCount statements := by
  induction statements with
  | nil => rfl
  | cons statement rest ih =>
    rw [Statement.nodeCount_cons, ← ih]
    cases statement <;> simp [widthsOf, Statement.added, Nat.add_comm]

theorem hasWidth_widthsOf (earlier statements : List Statement) :
    Statement.Throughout
      (Statement.HasWidth fun node => (widthsOf (earlier ++ statements)).getD node 0)
      (Statement.nodeCount earlier) statements := by
  induction statements generalizing earlier with
  | nil => trivial
  | cons statement rest ih =>
    constructor
    · cases statement with
      | node width =>
        simp [Statement.HasWidth, widthsOf, ← length_widthsOf earlier]
      | _ => trivial
    · have hrest := ih (earlier ++ [statement])
      rw [List.append_assoc, Statement.nodeCount_append] at hrest
      exact hrest

/-- Placing a fitted component on its own makes a draft in which every pin has a node. -/
theorem exists_draft {component : Component} (h : Fitted component) :
    ∃ width draft, Draft.empty.executeAll (component.placeRoot sharing).statements = .ok draft ∧
      Draft.Executed width .empty (component.placeRoot sharing).statements draft ∧
      (∀ statement ∈ (component.placeRoot sharing).statements,
        ∃ size, statement.IsFeasible width size) ∧
      ∀ gate ∈ (component.placeRoot sharing).result.all, Housed width draft.size gate := by
  have hwidths := hasWidth_widthsOf [] (component.placeRoot sharing).statements
  generalize hwidth : (fun node => (widthsOf ([] ++ (component.placeRoot sharing).statements)).getD
    node 0) = width at hwidths
  rw [Statement.nodeCount_nil] at hwidths
  have hplaced := isPlaced sharing component (List.range component.inputs.length)
    ((List.range component.outputs.length).map (component.inputs.length + ·))
    ⟨component.inputs.length + component.outputs.length, 0⟩
  have hstatements : (component.placeRoot sharing).statements =
      component.inputs.map (.node ·.width) ++ component.outputs.map (.node ·.width) ++
        (component.place sharing (List.range component.inputs.length)
          ((List.range component.outputs.length).map (component.inputs.length + ·))
          ⟨component.inputs.length + component.outputs.length, 0⟩).statements := by
    rw [placeRoot, List.map_append]
  have hfeasible : Statement.Throughout (Statement.IsFeasible width) 0
      (component.placeRoot sharing).statements ∧
      ∀ gate ∈ (component.placeRoot sharing).result.all, Housed width
        (component.placeRoot sharing).cursor.nodes gate := by
    rw [hstatements] at hwidths ⊢
    simp only [Statement.throughout_append, Statement.nodeCount_append, Statement.nodeCount_nodes,
      Nat.zero_add] at hwidths ⊢
    obtain ⟨⟨hinputs, houtputs⟩, hrest⟩ := hwidths
    have hhouseIn := housePins_range' hinputs
    have hhouseOut := housePins_range' houtputs
    rw [← List.range_eq_range', Nat.zero_add] at hhouseIn
    rw [List.range'_eq_map_range] at hhouseOut
    obtain ⟨hplace, hhoused⟩ := canBePlaced h _ _ ⟨component.inputs.length +
      component.outputs.length, 0⟩ (hhouseIn.mono (Nat.le_add_right _ _)) hhouseOut hrest
    exact ⟨⟨⟨feasible_nodes (h.pinsInOrder .input) _, feasible_nodes (h.pinsInOrder .output) _⟩,
      hplace⟩, hhoused⟩
  obtain ⟨draft, hdraft, hexecuted⟩ := Draft.executeAll_eq_ok (Draft.hasWidths_empty width) hwidths
    hfeasible.1
  refine ⟨width, draft, hdraft, hexecuted, fun statement hmem => hfeasible.1.exists_of_mem hmem,
    fun gate hgate => ?_⟩
  have hsize : draft.size = (component.placeRoot sharing).cursor.nodes := by
    rw [hexecuted.size, hstatements, Statement.nodeCount_append, Statement.nodeCount_append,
      Statement.nodeCount_nodes, Statement.nodeCount_nodes, placeRoot, hplaced.nodes]
    exact Nat.zero_add _
  rw [hsize]
  exact hfeasible.2 gate hgate

end Component

end ClockedLogic
