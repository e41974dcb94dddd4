import ClockedLogic.Proofs.Drafting
import Mathlib.Data.List.Forall2

/-!
Where the pins of a part go. A pin shares a node of its owner or has a node of its own. Own nodes
are new and differ from each other, and apart from the nodes themselves all statements are for
wires of pins with nodes of their own.
-/

namespace ClockedLogic

namespace Scope

variable {sharing : Bool} {scope : Scope} {wires : List Wire}

def share? (sharing : Bool) (scope : Scope) (wires : List Wire) (pin : Pin) : Option Nat :=
  if sharing then scope.sharedNode? (wires.filter (Wire.joins pin.role pin.index)) else none

def pinStatements (scope : Scope) (wires : List Wire) (pin : Pin) (node : Nat) : List Statement :=
  (wires.filter (Wire.joins pin.role pin.index)).filterMap (scope.statement? node)

theorem placePins_cons (pin : Pin) (pins : List Pin) (cursor : Cursor) :
    placePins sharing scope wires (pin :: pins) cursor =
      match share? sharing scope wires pin with
      | some node =>
        let rest := placePins sharing scope wires pins cursor
        ⟨node :: rest.result, rest.statements, rest.cursor⟩
      | none =>
        let node := cursor.nodes
        let rest := placePins sharing scope wires pins { cursor with nodes := node + 1 }
        ⟨node :: rest.result,
          .node pin.width :: pinStatements scope wires pin node ++ rest.statements,
          rest.cursor⟩ := rfl

/-- A pin that shares a node has one wire, which joins two whole pins. -/
theorem share?_eq_some {pin : Pin} {node : Nat} (h : share? sharing scope wires pin = some node) :
    ∃ wire ∈ wires, wire.partRole = pin.role ∧ wire.partIndex = pin.index ∧
      wire.isWhole = true ∧ scope.node? wire.owner = some node ∧
      ∀ other ∈ wires, other.partRole = pin.role → other.partIndex = pin.index → other = wire := by
  unfold share? at h
  split at h
  · generalize hfiltered : wires.filter (Wire.joins pin.role pin.index) = filtered at h
    have hmem : ∀ wire, wire ∈ filtered ↔
        wire ∈ wires ∧ wire.partRole = pin.role ∧ wire.partIndex = pin.index := by
      intro wire
      simp [← hfiltered, Wire.joins]
    unfold sharedNode? at h
    split at h
    · rename_i wire
      split at h
      · rename_i hwhole
        obtain ⟨hwire, hrole, hindex⟩ := (hmem wire).mp List.mem_cons_self
        refine ⟨wire, hwire, hrole, hindex, hwhole, h, fun other hother hrole' hindex' => ?_⟩
        exact List.mem_singleton.mp ((hmem other).mpr ⟨hother, hrole', hindex'⟩)
      · cases h
    · cases h
  · cases h

/-- The statement for a wire links the two nodes in the direction of the wire, or raises bits
that are tied to ones. -/
theorem statement?_eq_some {node : Nat} {wire : Wire} {statement : Statement}
    (h : scope.statement? node wire = some statement) :
    (wire.partRole = .input ∧ ∃ other, scope.node? wire.owner = some other ∧
      statement = .link other wire.ownerBits node wire.partBits) ∨
    (wire.partRole ≠ .input ∧ ∃ other, scope.node? wire.owner = some other ∧
      statement = .link node wire.partBits other wire.ownerBits) ∨
    (wire.partRole = .input ∧ wire.owner = .ones ∧ statement = .raise node wire.partBits) := by
  unfold statement? at h
  split at h
  · rename_i other hother hinput
    exact .inl ⟨hinput, other, hother, (Option.some.inj h).symm⟩
  · rename_i other hother hinput
    exact .inr (.inl ⟨hinput, other, hother, (Option.some.inj h).symm⟩)
  · rename_i hinput
    split at h
    · rename_i howner
      exact .inr (.inr ⟨hinput, howner, (Option.some.inj h).symm⟩)
    · cases h
  · cases h

theorem added_of_statement? {node : Nat} {wire : Wire} {statement : Statement}
    (h : scope.statement? node wire = some statement) : statement.added = 0 := by
  rcases statement?_eq_some h with ⟨-, _, -, rfl⟩ | ⟨-, _, -, rfl⟩ | ⟨-, -, rfl⟩ <;> rfl

structure PinsPlaced (sharing : Bool) (scope : Scope) (wires : List Wire) (pins : List Pin)
    (cursor : Cursor) (placed : Placed (List Nat)) : Prop where
  length : placed.result.length = pins.length
  gates : placed.cursor.gates = cursor.gates
  nodes : placed.cursor.nodes = cursor.nodes + Statement.nodeCount placed.statements
  /-- A pin shares a node or has a new one. -/
  found : ∀ (position : Nat) (pin : Pin) (node : Nat), pins[position]? = some pin →
    placed.result[position]? = some node →
    share? sharing scope wires pin = some node ∨
      share? sharing scope wires pin = none ∧ cursor.nodes ≤ node ∧ node < placed.cursor.nodes
  /-- New nodes differ. -/
  apart : ∀ (position other : Nat) (pin pin' : Pin) (node : Nat), pins[position]? = some pin →
    pins[other]? = some pin' → share? sharing scope wires pin = none →
    share? sharing scope wires pin' = none → placed.result[position]? = some node →
    placed.result[other]? = some node → position = other
  /-- All statements are for pins with new nodes and for their wires. -/
  statements : ∀ statement ∈ placed.statements, (∃ width, statement = .node width) ∨
    ∃ (position : Nat) (pin : Pin) (node : Nat) (wire : Wire), pins[position]? = some pin ∧
      placed.result[position]? = some node ∧ share? sharing scope wires pin = none ∧
      wire ∈ wires ∧ wire.partRole = pin.role ∧ wire.partIndex = pin.index ∧
      scope.statement? node wire = some statement

theorem mem_pinStatements {pin : Pin} {node : Nat} {statement : Statement} :
    statement ∈ pinStatements scope wires pin node ↔ ∃ wire ∈ wires, wire.partRole = pin.role ∧
      wire.partIndex = pin.index ∧ scope.statement? node wire = some statement := by
  simp only [pinStatements, List.mem_filterMap, List.mem_filter, Wire.joins, decide_eq_true_eq,
    and_assoc]

theorem nodeCount_pinStatements (scope : Scope) (wires : List Wire) (pin : Pin) (node : Nat) :
    Statement.nodeCount (pinStatements scope wires pin node) = 0 := by
  apply Statement.nodeCount_eq_zero
  intro statement hstatement
  obtain ⟨wire, -, -, -, hwire⟩ := mem_pinStatements.mp hstatement
  exact added_of_statement? hwire

theorem PinsPlaced.nil (sharing : Bool) (scope : Scope) (wires : List Wire) (cursor : Cursor) :
    PinsPlaced sharing scope wires [] cursor ⟨[], [], cursor⟩ where
  length := rfl
  gates := rfl
  nodes := rfl
  found _ _ _ hpin := by simp at hpin
  apart _ _ _ _ _ hpin := by simp at hpin
  statements _ hstatement := by simp at hstatement

theorem PinsPlaced.cons_shared {pin : Pin} {pins : List Pin} {cursor : Cursor}
    {rest : Placed (List Nat)} {node : Nat} (hshare : share? sharing scope wires pin = some node)
    (h : PinsPlaced sharing scope wires pins cursor rest) :
    PinsPlaced sharing scope wires (pin :: pins) cursor
      ⟨node :: rest.result, rest.statements, rest.cursor⟩ := by
  refine ⟨by simp [h.length], h.gates, h.nodes, ?_, ?_, ?_⟩
  · rintro (_ | position) other found hpin hfound
    · simp only [List.getElem?_cons_zero, Option.some.injEq] at hpin hfound
      subst hpin hfound
      exact .inl hshare
    · exact h.found position other found hpin hfound
  · rintro (_ | position) (_ | other) first second found hfirst hsecond hown hown' hfound hfound'
    · rfl
    · rw [Option.some.inj hfirst, hown] at hshare
      cases hshare
    · rw [Option.some.inj hsecond, hown'] at hshare
      cases hshare
    · rw [h.apart position other first second found hfirst hsecond hown hown' hfound hfound']
  · intro statement hstatement
    rcases h.statements statement hstatement with hnode |
      ⟨position, other, found, wire, hpin, hfound, hwire⟩
    · exact .inl hnode
    · exact .inr ⟨position + 1, other, found, wire, hpin, hfound, hwire⟩

theorem PinsPlaced.cons_own {pin : Pin} {pins : List Pin} {cursor : Cursor}
    {rest : Placed (List Nat)} (hshare : share? sharing scope wires pin = none)
    (h : PinsPlaced sharing scope wires pins { cursor with nodes := cursor.nodes + 1 } rest) :
    PinsPlaced sharing scope wires (pin :: pins) cursor
      ⟨cursor.nodes :: rest.result,
        .node pin.width :: pinStatements scope wires pin cursor.nodes ++ rest.statements,
        rest.cursor⟩ := by
  have hnodes := h.nodes
  simp only at hnodes
  -- the node of the first pin lies before the nodes of all others
  have hlater : ∀ (position : Nat) (other : Pin) (found : Nat), pins[position]? = some other →
      share? sharing scope wires other = none → rest.result[position]? = some found →
      cursor.nodes < found := by
    intro position other found hother hown hfound
    rcases h.found position other found hother hfound with hshared | ⟨-, hlow, -⟩
    · rw [hown] at hshared
      cases hshared
    · exact hlow
  refine ⟨by simp [h.length], h.gates, ?_, ?_, ?_, ?_⟩
  · simp only [List.cons_append, Statement.nodeCount_cons, Statement.nodeCount_append,
      nodeCount_pinStatements, Statement.added]
    omega
  · rintro (_ | position) other found hpin hfound
    · simp only [List.getElem?_cons_zero, Option.some.injEq] at hpin hfound
      subst hpin hfound
      exact .inr ⟨hshare, Nat.le_refl _, by simp only; omega⟩
    · rcases h.found position other found hpin hfound with hshared | ⟨hown, hlow, hhigh⟩
      · exact .inl hshared
      · exact .inr ⟨hown, Nat.le_of_succ_le hlow, hhigh⟩
  · rintro (_ | position) (_ | other) first second found hfirst hsecond hown hown' hfound hfound'
    · rfl
    · have hlt := hlater other second found hsecond hown' hfound'
      have heq : cursor.nodes = found := Option.some.inj hfound
      omega
    · have hlt := hlater position first found hfirst hown hfound
      have heq : cursor.nodes = found := Option.some.inj hfound'
      omega
    · rw [h.apart position other first second found hfirst hsecond hown hown' hfound hfound']
  · intro statement hstatement
    rw [List.cons_append, List.mem_cons, List.mem_append, mem_pinStatements] at hstatement
    rcases hstatement with rfl | ⟨wire, hwire, hrole, hindex, hstatement⟩ | hstatement
    · exact .inl ⟨_, rfl⟩
    · exact .inr ⟨0, pin, cursor.nodes, wire, rfl, rfl, hshare, hwire, hrole, hindex, hstatement⟩
    · rcases h.statements statement hstatement with hnode |
        ⟨position, other, found, wire, hpin, hfound, hwire⟩
      · exact .inl hnode
      · exact .inr ⟨position + 1, other, found, wire, hpin, hfound, hwire⟩

theorem pinsPlaced (sharing : Bool) (scope : Scope) (wires : List Wire) (pins : List Pin)
    (cursor : Cursor) :
    PinsPlaced sharing scope wires pins cursor
      (placePins sharing scope wires pins cursor) := by
  induction pins generalizing cursor with
  | nil => exact .nil sharing scope wires cursor
  | cons pin pins ih =>
    rw [placePins_cons]
    split
    · rename_i node hshare
      exact .cons_shared hshare (ih cursor)
    · rename_i hshare
      exact .cons_own hshare (ih _)

/-- All wires of a pin with a node of its own have their statements. -/
theorem mem_placePins {pins : List Pin} {cursor : Cursor} {position node : Nat} {pin : Pin}
    (hpin : pins[position]? = some pin)
    (hnode : (placePins sharing scope wires pins cursor).result[position]? = some node)
    (hnew : share? sharing scope wires pin = none) {statement : Statement}
    (hstatement : statement ∈ pinStatements scope wires pin node) :
    statement ∈ (placePins sharing scope wires pins cursor).statements := by
  induction pins generalizing cursor position with
  | nil => simp at hpin
  | cons first pins ih =>
    rw [placePins_cons] at hnode ⊢
    split at hnode
    · rename_i shared hshare
      cases position with
      | zero =>
        rw [Option.some.inj hpin, hnew] at hshare
        cases hshare
      | succ position => exact ih hpin hnode
    · cases position with
      | zero =>
        obtain rfl := Option.some.inj hpin
        obtain rfl := Option.some.inj hnode
        exact List.mem_append_left _ (List.mem_cons_of_mem _ hstatement)
      | succ position => exact List.mem_append_right _ (ih hpin hnode)

/-- The far end of a wire is a node that exists, and has as many bits as the wire takes. -/
structure Matches (width : Nat → Nat) (bound : Nat) (scope : Scope) (pin : Pin) (wire : Wire) :
    Prop where
  below : ∀ node, scope.node? wire.owner = some node → node < bound
  even : ∀ node, scope.node? wire.owner = some node →
    (pin.spanOf wire.partBits).width = (spanAt width node wire.ownerBits).width
  whole : ∀ node, scope.node? wire.owner = some node → wire.isWhole = true →
    width node = pin.width

def PinsMatch (width : Nat → Nat) (bound : Nat) (scope : Scope) (wires : List Wire)
    (pins : List Pin) : Prop :=
  ∀ pin ∈ pins, pin.width ≤ 16 ∧ ∀ wire ∈ wires, wire.partRole = pin.role →
    wire.partIndex = pin.index → Matches width bound scope pin wire

def HousePins (width : Nat → Nat) (bound : Nat) (pins : List Pin) (nodes : List Nat) : Prop :=
  List.Forall₂ (fun pin node => width node = pin.width ∧ node < bound) pins nodes

variable {width : Nat → Nat} {bound : Nat}

theorem HousePins.mono {pins : List Pin} {nodes : List Nat} (h : HousePins width bound pins nodes)
    {bound' : Nat} (hle : bound ≤ bound') : HousePins width bound' pins nodes :=
  h.imp fun _ _ hnode => ⟨hnode.1, Nat.lt_of_lt_of_le hnode.2 hle⟩

theorem Matches.mono {pin : Pin} {wire : Wire} (h : Matches width bound scope pin wire)
    {bound' : Nat} (hle : bound ≤ bound') : Matches width bound' scope pin wire :=
  ⟨fun node hnode => Nat.lt_of_lt_of_le (h.below node hnode) hle, h.even, h.whole⟩

theorem Matches.isFeasible {pin : Pin} {wire : Wire} (h : Matches width bound scope pin wire)
    {node : Nat} (hnode : node < bound) (hwidth : width node = pin.width) {statement : Statement}
    (hstatement : scope.statement? node wire = some statement) :
    statement.IsFeasible width bound := by
  have hspan := spanAt_eq hwidth wire.partBits
  rcases statement?_eq_some hstatement with
    ⟨-, other, hother, rfl⟩ | ⟨-, other, hother, rfl⟩ | ⟨-, -, rfl⟩
  · refine ⟨h.below other hother, hnode, ?_⟩
    rw [hspan, h.even other hother]
  · refine ⟨hnode, h.below other hother, ?_⟩
    rw [hspan, h.even other hother]
  · exact hnode

/-- Pins with matching wires are placed by feasible statements at nodes of their widths. -/
theorem placePins_feasible {pins : List Pin} {cursor : Cursor}
    (h : PinsMatch width cursor.nodes scope wires pins)
    (hwidths : Statement.Throughout (Statement.HasWidth width) cursor.nodes
      (placePins sharing scope wires pins cursor).statements) :
    Statement.Throughout (Statement.IsFeasible width) cursor.nodes
      (placePins sharing scope wires pins cursor).statements ∧
    HousePins width (placePins sharing scope wires pins cursor).cursor.nodes pins
      (placePins sharing scope wires pins cursor).result := by
  induction pins generalizing cursor with
  | nil => exact ⟨trivial, .nil⟩
  | cons pin pins ih =>
    obtain ⟨hthis, hwires⟩ := h pin List.mem_cons_self
    have hlater : PinsMatch width cursor.nodes scope wires pins :=
      fun other hother => h other (List.mem_cons_of_mem _ hother)
    rw [placePins_cons] at hwidths ⊢
    split at hwidths
    · rename_i node hshare
      have hnodes := (pinsPlaced sharing scope wires pins cursor).nodes
      obtain ⟨wire, hwire, hrole, hindex, hwhole, hnode, -⟩ := share?_eq_some hshare
      have hmatches := hwires wire hwire hrole hindex
      obtain ⟨hfeasible, hhouse⟩ := ih hlater hwidths
      refine ⟨hfeasible, .cons ⟨hmatches.whole node hnode hwhole, ?_⟩ hhouse⟩
      have hbelow := hmatches.below node hnode
      simp only
      omega
    · rename_i hshare
      have hnodes := (pinsPlaced sharing scope wires pins
        { cursor with nodes := cursor.nodes + 1 }).nodes
      simp only at hnodes hwidths ⊢
      rw [List.cons_append, Statement.Throughout, Statement.throughout_append] at hwidths
      obtain ⟨hwidth, -, hwidths⟩ := hwidths
      have hzero : ∀ statement ∈ pinStatements scope wires pin cursor.nodes,
          statement.added = 0 ∧ statement.IsFeasible width (cursor.nodes + 1) := by
        intro statement hstatement
        obtain ⟨wire, hwire, hrole, hindex, hstatement⟩ := mem_pinStatements.mp hstatement
        exact ⟨added_of_statement? hstatement, ((hwires wire hwire hrole hindex).mono
          (Nat.le_succ _)).isFeasible (Nat.lt_succ_self _) hwidth hstatement⟩
      rw [nodeCount_pinStatements] at hwidths
      obtain ⟨hfeasible, hhouse⟩ := @ih { cursor with nodes := cursor.nodes + 1 }
        (fun other hother => ⟨(hlater other hother).1, fun wire hwire hrole hindex =>
          ((hlater other hother).2 wire hwire hrole hindex).mono (Nat.le_succ _)⟩) hwidths
      refine ⟨?_, .cons ⟨hwidth, by omega⟩ hhouse⟩
      rw [List.cons_append, Statement.Throughout, Statement.throughout_append,
        nodeCount_pinStatements]
      exact ⟨hthis, Statement.throughout_of_forall hzero, hfeasible⟩

end Scope

end ClockedLogic
