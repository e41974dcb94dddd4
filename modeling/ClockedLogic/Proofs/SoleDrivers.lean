import ClockedLogic.Proofs.BlueprintWiring
import ClockedLogic.Proofs.LinkOrder

/-!
At most one driver for every bit. The links and constants of a pin are made together with the node
of the pin, so that each of them can be traced back to the newest node that it mentions: no two of
them are alike, and those that drive a common bit are one. With what the wires of a component
promise, at whatever depth, nothing that has been built drives a bit twice once it is placed.
-/

namespace ClockedLogic

namespace Statement

/-- The node of the pin whose wire a link or a constant is made for. It is newer than the node at
the other end of the wire. -/
def home? : Statement → Option Nat
  | .link source _ target _ => some (max source target)
  | .raise target _ => some target
  | _ => none

/-- Statements whose links and constants are for pins with nodes in a range, all of them
different. -/
structure Once (low high : Nat) (statements : List Statement) : Prop where
  within : ∀ statement ∈ statements, ∀ node ∈ statement.home?, low ≤ node ∧ node < high
  apart : statements.Pairwise fun a b => a = b → a.home? = none

variable {low middle high : Nat} {first second : List Statement}

/-- Other statements may occur again. -/
theorem once_of_home?_eq_none {statements : List Statement}
    (h : ∀ statement ∈ statements, statement.home? = none) : Once low high statements where
  within statement hmem node hnode := by
    rw [h statement hmem] at hnode
    cases hnode
  apart := List.pairwise_of_forall_mem_list fun a ha _ _ _ => h a ha

/-- What is for pins with different nodes is different. -/
theorem Once.append (h : Once low middle first) (h' : Once middle high second)
    (hlow : low ≤ middle) (hhigh : middle ≤ high) : Once low high (first ++ second) where
  within statement hmem node hnode := by
    rcases List.mem_append.mp hmem with hmem | hmem
    · have hrange := h.within statement hmem node hnode
      omega
    · have hrange := h'.within statement hmem node hnode
      omega
  apart := by
    refine List.pairwise_append.mpr ⟨h.apart, h'.apart, fun a ha b hb hsame => ?_⟩
    subst hsame
    cases hhome : a.home? with
    | none => rfl
    | some node =>
      have hrange := h.within a ha node hhome
      have hrange' := h'.within a hb node hhome
      omega

end Statement

open Component Statement

namespace Scope

variable {sharing : Bool} {scope : Scope} {wires : List Wire}

/-- The wires of pins of one role lead to nodes that are older than a bound, and no two of them make
the same statement. -/
structure Distinguishes (scope : Scope) (wires : List Wire) (bound : Nat) : Prop where
  older : ∀ far node, scope.node? far = some node → node < bound
  apart : wires.Pairwise fun a b => a.partRole = b.partRole → a.partIndex = b.partIndex →
    ∀ node statement, scope.statement? node a = some statement →
      scope.statement? node b ≠ some statement

theorem Distinguishes.mono {bound bound' : Nat} (h : Distinguishes scope wires bound)
    (hle : bound ≤ bound') : Distinguishes scope wires bound' :=
  ⟨fun far node hnode => Nat.lt_of_lt_of_le (h.older far node hnode) hle, h.apart⟩

/-- The statement for a wire of a pin is at home at the node of the pin. -/
theorem home?_of_statement? {bound node : Nat} (holder : ∀ far node, scope.node? far = some node →
      node < bound) (hnode : bound ≤ node) {wire : Wire} {statement : Statement}
    (h : scope.statement? node wire = some statement) : statement.home? = some node := by
  rcases statement?_eq_some h with ⟨-, other, hother, rfl⟩ | ⟨-, other, hother, rfl⟩ | ⟨-, -, rfl⟩
  · have hlt := holder _ _ hother
    rw [home?, max_eq_right (by omega)]
  · have hlt := holder _ _ hother
    rw [home?, max_eq_left (by omega)]
  · rfl

theorem once_pinStatements {bound node : Nat} (h : Distinguishes scope wires bound)
    (hnode : bound ≤ node) (pin : Pin) :
    Once node (node + 1) (pinStatements scope wires pin node) where
  within statement hmem other hother := by
    obtain ⟨wire, -, -, -, hstatement⟩ := mem_pinStatements.mp hmem
    rw [home?_of_statement? h.older hnode hstatement] at hother
    obtain rfl := Option.some.inj hother
    omega
  apart := by
    rw [pinStatements, List.pairwise_filterMap]
    refine (h.apart.filter _).imp_of_mem fun {a b} ha hb hapart statement hstatement other hother
      hsame => ?_
    simp only [List.mem_filter, Wire.joins, decide_eq_true_eq] at ha hb
    subst hsame
    exact absurd hother (hapart (ha.2.1.trans hb.2.1.symm) (ha.2.2.trans hb.2.2.symm) node _
      hstatement)

theorem once_placePins {pins : List Pin} {cursor : Cursor}
    (h : Distinguishes scope wires cursor.nodes) :
    Once cursor.nodes (placePins sharing scope wires pins cursor).cursor.nodes
      (placePins sharing scope wires pins cursor).statements := by
  induction pins generalizing cursor with
  | nil => exact once_of_home?_eq_none (by simp [placePins])
  | cons pin pins ih =>
    rw [placePins_cons]
    split
    · exact ih h
    · have hnodes := (pinsPlaced sharing scope wires pins
        { cursor with nodes := cursor.nodes + 1 }).nodes
      simp only at hnodes
      have hnode : Once cursor.nodes cursor.nodes [.node pin.width] :=
        once_of_home?_eq_none (by simp [home?])
      have hrest := @ih { cursor with nodes := cursor.nodes + 1 } (h.mono (Nat.le_succ _))
      have hpin := once_pinStatements h (Nat.le_refl _) pin
      exact (hnode.append hpin (Nat.le_refl _) (Nat.le_succ _)).append hrest (Nat.le_succ _)
        (by simp only; omega)

end Scope

namespace Owner

variable {sharing : Bool} {scope : Scope} {cursor : Cursor} {interface : Interface}
  {internals : List Pin} {parts : List (Part Component)} {pinsOf : PinRole → List Pin}

/-- Different wires of a pin of a part make different statements. -/
theorem statement?_ne (h : Owner scope cursor.nodes interface internals parts pinsOf)
    {part : Part Component} (hpart : part ∈ parts) {a b : Wire} (ha : a ∈ part.wires)
    (hb : b ∈ part.wires) (hne : a ≠ b) (hrole : a.partRole = b.partRole)
    (hindex : a.partIndex = b.partIndex) {node : Nat} {statement : Statement}
    (hstatement : scope.statement? node a = some statement) :
    scope.statement? node b ≠ some statement := by
  intro hstatement'
  cases hinput : a.partRole with
  | input =>
    obtain ⟨pin, hpin, -⟩ := (h.fitting.fits _ hpart _ ha).exists_input hinput
    have hapart := h.fitting.inputs_apart _ hpart _ ha _ hb hne hinput (hrole ▸ hinput) hindex pin
      hpin
    have hbits : a.partBits = b.partBits := by
      rcases Scope.statement?_eq_some hstatement with
        ⟨-, other, -, rfl⟩ | ⟨hnot, -⟩ | ⟨-, -, rfl⟩
      · rcases Scope.statement?_eq_some hstatement' with
          ⟨-, _, -, hsame⟩ | ⟨hnot, -⟩ | ⟨-, -, hsame⟩
        · exact (Statement.link.inj hsame).2.2.2
        · exact absurd (hrole ▸ hinput) hnot
        · cases hsame
      · exact absurd hinput hnot
      · rcases Scope.statement?_eq_some hstatement' with
          ⟨-, _, -, hsame⟩ | ⟨hnot, -⟩ | ⟨-, -, hsame⟩
        · cases hsame
        · exact absurd (hrole ▸ hinput) hnot
        · exact (Statement.raise.inj hsame).2
    rw [hbits, BitSpan.overlaps_self] at hapart
    cases hapart
  | output =>
    obtain ⟨role, index, _, howner, hdriven, -, -⟩ := (h.fitting.fits _ hpart _ ha).drives hinput
    obtain ⟨role', index', _, howner', hdriven', -, -⟩ :=
      (h.fitting.fits _ hpart _ hb).drives (hrole ▸ hinput)
    rcases Scope.statement?_eq_some hstatement with
      ⟨hin, -⟩ | ⟨-, other, hother, rfl⟩ | ⟨hin, -⟩
    · rw [hinput] at hin
      cases hin
    · rcases Scope.statement?_eq_some hstatement' with
        ⟨hin, -⟩ | ⟨-, other', hother', hsame⟩ | ⟨hin, -⟩
      · rw [← hrole, hinput] at hin
        cases hin
      · obtain ⟨-, hpartBits, rfl, hownerBits⟩ := Statement.link.inj hsame
        rw [howner] at hother
        rw [howner'] at hother'
        have hfar := h.injective _ _ _ _ _ hdriven hdriven' hother hother'
        apply hne
        cases a
        cases b
        simp only [Wire.mk.injEq]
        exact ⟨hrole, hindex, hpartBits, (howner.trans hfar).trans howner'.symm, hownerBits⟩
      · rw [← hrole, hinput] at hin
        cases hin
    · rw [hinput] at hin
      cases hin
  | internal => exact absurd hinput (h.fitting.fits _ hpart _ ha).partRole_ne_internal

theorem distinguishes (h : Owner scope cursor.nodes interface internals parts pinsOf)
    {part : Part Component} (hpart : part ∈ parts) :
    Scope.Distinguishes scope part.wires cursor.nodes where
  older := h.below
  apart := (h.fitting.nodup part hpart).imp_of_mem fun ha hb hne hrole hindex _ _ hstatement =>
    h.statement?_ne hpart ha hb hne hrole hindex hstatement

end Owner

namespace Component

variable {sharing : Bool} {scope : Scope}

theorem PartPlaced.once {placed : PlacedPart} (h : PartPlaced sharing scope placed)
    (hwires : Scope.Distinguishes scope placed.part.wires placed.start.nodes)
    (hgate : Once placed.outputs.cursor.nodes placed.gate.cursor.nodes placed.gate.statements) :
    Once placed.start.nodes placed.gate.cursor.nodes placed.statements := by
  obtain ⟨hle, hle', hle''⟩ := h.le
  have hinputs : Once placed.start.nodes placed.inputs.cursor.nodes placed.inputs.statements := by
    rw [h.inputs_eq]
    exact Scope.once_placePins hwires
  have houtputs :
      Once placed.inputs.cursor.nodes placed.outputs.cursor.nodes placed.outputs.statements := by
    rw [h.outputs_eq]
    exact Scope.once_placePins (hwires.mono hle)
  exact (hinputs.append houtputs hle hle').append hgate (Nat.le_trans hle hle') hle''

theorem once_placeParts {parts : List (Part Component)} {cursor : Cursor}
    (h : ∀ placed ∈ placeEach sharing scope parts cursor,
      Once placed.start.nodes placed.gate.cursor.nodes placed.statements) :
    Once cursor.nodes (placeParts sharing scope parts cursor).cursor.nodes
      (placeParts sharing scope parts cursor).statements := by
  induction parts generalizing cursor with
  | nil =>
    unfold placeParts
    exact once_of_home?_eq_none (by simp)
  | cons part parts ih =>
    have hle := (partPlaced sharing scope part cursor).le
    have hstart : (placePart sharing scope part cursor).start = cursor := rfl
    have hnodes := (@arePlaced sharing scope parts
      (fun _ _ => isPlaced sharing _) (placePart sharing scope part cursor).gate.cursor).nodes
    have hfirst := h _ List.mem_cons_self
    have hrest := ih fun placed hplaced => h placed (List.mem_cons_of_mem _ hplaced)
    rw [hstart] at hle hfirst
    rw [placeParts_cons]
    dsimp only
    exact hfirst.append hrest (by omega) (by omega)

variable {interface : Interface} {internals : List Pin} {parts : List (Part Component)}
  {dependencies : Digraph Vertex} {inputs outputs : List Nat} {cursor : Cursor}

/-- Placing a fitted component makes no link and no constant twice. -/
theorem once_place {component : Component} (h : Fitted component)
    (hseat : Seat inputs outputs cursor) :
    Once cursor.nodes (place sharing component inputs outputs cursor).cursor.nodes
      (place sharing component inputs outputs cursor).statements := by
  have hlistens : ∀ (nodes : List Nat) (index : Nat),
      ∀ statement ∈ nodes.map (Statement.listen · index), statement.home? = none := by
    intro nodes index statement hstatement
    obtain ⟨_, -, rfl⟩ := List.mem_map.mp hstatement
    rfl
  induction h generalizing inputs outputs cursor with
  | builtIn =>
    rw [place]
    exact once_of_home?_eq_none (hlistens _ _)
  | @composite interface internals parts dependencies hparts hfitting ih =>
    have howner := owner hparts hfitting hseat
    have hparts' := @once_placeParts sharing (innerScope internals inputs outputs cursor) parts
      (innerCursor internals cursor) fun placed hplaced => by
        obtain ⟨hmem, hmade, hstart, -⟩ := mem_placeEach hplaced
        refine hmade.once ((howner.distinguishes hmem).mono hstart) ?_
        rw [hmade.gate_eq]
        exact ih _ hmem (howner.seat hplaced)
    have hcursor : cursor.nodes ≤ (innerCursor internals cursor).nodes := Nat.le_add_right _ _
    have hinternals : Once cursor.nodes (innerCursor internals cursor).nodes
        (internals.map (Statement.node ·.width)) := by
      refine once_of_home?_eq_none fun statement hstatement => ?_
      obtain ⟨_, -, rfl⟩ := List.mem_map.mp hstatement
      rfl
    have hnodes := (@arePlaced sharing (innerScope internals inputs outputs cursor) parts
      (fun _ _ => isPlaced sharing _) (innerCursor internals cursor)).nodes
    rw [nodes_place_composite]
    unfold place
    generalize hplaced : placeParts sharing (innerScope internals inputs outputs cursor) parts
      (innerCursor internals cursor) = placed at hparts' hnodes ⊢
    have hlast : Once placed.cursor.nodes placed.cursor.nodes
        (inputs.map (Statement.listen · placed.cursor.gates)) :=
      once_of_home?_eq_none (hlistens _ _)
    have hbelow := hinternals.append hparts' hcursor (by omega)
    have hall := hbelow.append hlast (by omega) (Nat.le_refl _)
    rw [← hplaced] at hall ⊢
    exact hall

end Component

/-- A statement that makes a link into a node is a link to that node. -/
theorem Statement.linkInto?_eq_some {width : Nat → Nat} {node : Nat} {statement : Statement}
    {link : Link} (h : statement.linkInto? width node = some link) :
    ∃ source bits targetBits, statement = .link source bits node targetBits ∧
      link = ⟨spanAt width source bits, node, spanAt width node targetBits⟩ := by
  cases statement with
  | link source bits target targetBits =>
    simp only [linkInto?] at h
    split at h
    · rename_i htarget
      subst htarget
      exact ⟨source, bits, targetBits, rfl, (Option.some.inj h).symm⟩
    · cases h
  | _ => cases h

def Gate.builtInOutputs (root : Gate) : List Nat :=
  root.all.flatMap fun
    | .builtIn site _ => site.outputs
    | .composite .. => []

theorem Gate.mem_builtInOutputs {root : Gate} {node : Nat} :
    node ∈ root.builtInOutputs ↔
      ∃ site chip, .builtIn site chip ∈ root.all ∧ node ∈ site.outputs := by
  rw [builtInOutputs, List.mem_flatMap]
  constructor
  · intro hexists
    obtain ⟨gate, hgate, hnode⟩ := hexists
    cases gate with
    | builtIn site chip => exact ⟨site, chip, hgate, hnode⟩
    | composite => cases hnode
  · intro hexists
    obtain ⟨site, chip, hgate, hnode⟩ := hexists
    exact ⟨_, hgate, hnode⟩

def Netlist.Copies (netlist : Netlist) (source target : Nat) : Prop :=
  ∃ link, netlist.Leads source link ∧ link.target = target

structure SoleDrivers (root : Gate) (statements : List Statement) (netlist : Netlist) : Prop where
  /-- Every pin has a node of its width. -/
  housed : ∀ gate ∈ root.all, Housed netlist.width netlist.size gate
  acyclic : ∀ node, ¬ Relation.TransGen netlist.Copies node node
  links_apart : ∀ node, (netlist.linksInto node).Pairwise
    fun a b => a.targetBits.overlaps b.targetBits = false
  raised_apart : ∀ node bits, .raise node bits ∈ statements → ∀ link ∈ netlist.linksInto node,
    link.targetBits.overlaps (spanAt netlist.width node bits) = false
  outputs_once : root.builtInOutputs.Nodup
  outputs_unlinked : ∀ node ∈ root.builtInOutputs, netlist.linksInto node = []
  inputs_unlinked : ∀ node ∈ root.inputs, netlist.linksInto node = []
  inputs_unset : ∀ node ∈ root.inputs, node ∉ root.builtInOutputs
  cascades_end : ∀ cascade : Cascade, ∃ last, cascade.EndsIn netlist last

namespace Component

variable {sharing : Bool} {component : Component}

theorem once_placeRoot (sharing : Bool) (h : Fitted component) :
    (component.placeRoot sharing).statements.Pairwise fun a b => a = b → a.home? = none := by
  have hplain : ∀ statement ∈ (component.inputs ++ component.outputs).map (Statement.node ·.width),
      statement.home? = none := by
    intro statement hstatement
    obtain ⟨_, -, rfl⟩ := List.mem_map.mp hstatement
    rfl
  exact List.pairwise_append.mpr
    ⟨List.pairwise_of_forall_mem_list fun a ha _ _ _ => hplain a ha, (once_place h root_seat).apart,
      fun a ha _ _ _ => hplain a ha⟩

namespace Rendered

variable {width : Nat → Nat} {draft : Draft}

theorem mem_linksInto (h : Rendered sharing component width draft) {node : Nat} {link : Link} :
    link ∈ draft.netlist.linksInto node ↔ ∃ source bits targetBits,
      (component.rootPlaced sharing).Has (.statement (.link source bits node targetBits)) ∧
      link = ⟨spanAt width source bits, node, spanAt width node targetBits⟩ := by
  refine ((h.executed.links node).mem_iff).trans ⟨?_, ?_⟩
  · intro hmade
    obtain ⟨statement, hmem, hlink⟩ := List.mem_filterMap.mp hmade
    obtain ⟨source, bits, targetBits, rfl, rfl⟩ := Statement.linkInto?_eq_some hlink
    exact ⟨source, bits, targetBits, (mem_placeRoot_iff rfl).mp hmem, rfl⟩
  · intro hexists
    obtain ⟨source, bits, targetBits, hhas, rfl⟩ := hexists
    exact List.mem_filterMap.mpr ⟨_, (mem_placeRoot_iff rfl).mpr hhas, if_pos rfl⟩

/-- What is set has no links into it. -/
theorem linksInto_eq_nil (h : Rendered sharing component width draft) {node : Nat}
    (hsets : (component.rootPlaced sharing).result.Sets node) :
    draft.netlist.linksInto node = [] := by
  refine List.eq_nil_iff_forall_not_mem.mpr fun link hlink => ?_
  obtain ⟨source, bits, targetBits, hhas, -⟩ := h.mem_linksInto.mp hlink
  exact h.not_sets hhas ⟨rfl, Nat.le_refl _, (spanAt width node targetBits).low_le_high⟩ hsets

/-- Two links into a node that are made by two statements drive different bits. -/
theorem links_apart (h : Rendered sharing component width draft) (node : Nat) :
    (draft.netlist.linksInto node).Pairwise
      fun a b => a.targetBits.overlaps b.targetBits = false := by
  have hsymm : ∀ {a b : Link}, a.targetBits.overlaps b.targetBits = false →
      b.targetBits.overlaps a.targetBits = false := by
    intro a b hab
    rwa [BitSpan.overlaps_comm]
  rw [(h.executed.links node).pairwise_iff hsymm]
  refine List.pairwise_filterMap.mpr
    ((once_placeRoot sharing h.fitted).imp_of_mem
      fun {a b} ha hb honce link hlink other hother => ?_)
  obtain ⟨source, bits, targetBits, rfl, rfl⟩ := Statement.linkInto?_eq_some hlink
  obtain ⟨source', bits', targetBits', rfl, rfl⟩ := Statement.linkInto?_eq_some hother
  by_contra hoverlaps
  obtain ⟨bit, hcovers, hcovers'⟩ :=
    BitSpan.overlaps_iff.mp (Bool.eq_true_of_not_eq_false hoverlaps)
  have hhas : (component.rootPlaced sharing).Has
      (.statement (.link source bits node targetBits)) := (mem_placeRoot_iff rfl).mp ha
  have hhas' : (component.rootPlaced sharing).Has
      (.statement (.link source' bits' node targetBits')) := (mem_placeRoot_iff rfl).mp hb
  cases honce (Driver.statement.inj (h.unique hhas hhas' ⟨rfl, hcovers⟩ ⟨rfl, hcovers'⟩))

theorem raised_apart (h : Rendered sharing component width draft) {node : Nat}
    {bits : Option BitSpan} (hraise : .raise node bits ∈ (component.placeRoot sharing).statements)
    {link : Link} (hlink : link ∈ draft.netlist.linksInto node) :
    link.targetBits.overlaps (spanAt draft.netlist.width node bits) = false := by
  have hhas : (component.rootPlaced sharing).Has (.statement (.raise node bits)) :=
    (mem_placeRoot_iff rfl).mp hraise
  rw [h.spanAt_eq hhas rfl]
  obtain ⟨source, sourceBits, targetBits, hhas', rfl⟩ := h.mem_linksInto.mp hlink
  by_contra hoverlaps
  obtain ⟨bit, hcovers, hcovers'⟩ :=
    BitSpan.overlaps_iff.mp (Bool.eq_true_of_not_eq_false hoverlaps)
  cases h.unique hhas' hhas ⟨rfl, hcovers⟩ ⟨rfl, hcovers'⟩

/-- No node is an output of built in gates twice. -/
theorem nodup_builtInOutputs (h : Rendered sharing component width draft) :
    (component.rootPlaced sharing).result.builtInOutputs.Nodup := by
  have hdistinct : ((component.rootPlaced sharing).result.all.map Gate.index).Nodup := by
    rw [root_isPlaced.indices]
    exact List.nodup_range'
  refine List.nodup_flatMap.mpr ⟨fun gate hgate => ?_, ?_⟩
  · cases gate with
    | composite => exact List.nodup_nil
    | builtIn site chip =>
      obtain ⟨inner, inputs, outputs, cursor, hspot, hmade⟩ :=
        (spot_rootPlaced sharing h.fitted).exists_of_mem hgate
      have houtputs := (isPlaced sharing inner inputs outputs cursor).outputs_eq
      rw [← hmade] at houtputs
      dsimp only [Gate.outputs, Gate.site] at houtputs
      dsimp only
      rw [houtputs]
      exact hspot.seat.nodup
  · refine (List.pairwise_map.mp hdistinct).imp_of_mem fun {a b} ha hb hne node hnode hnode' => ?_
    cases a with
    | composite => cases hnode
    | builtIn site chip =>
      cases b with
      | composite => cases hnode'
      | builtIn site' chip' =>
        have hhas : (component.rootPlaced sharing).Has (.gate (.builtIn site chip)) := ha
        have hhas' : (component.rootPlaced sharing).Has (.gate (.builtIn site' chip')) := hb
        have hsame := @unique _ _ _ _ h _ _ node 0 hhas hhas' hnode hnode'
        exact hne (congrArg Gate.index (Driver.gate.inj hsame))

theorem soleDrivers (h : Rendered sharing component width draft) :
    SoleDrivers (component.placeRoot sharing).result (component.placeRoot sharing).statements
      draft.netlist := by
  obtain ⟨level, hbound, hlevel⟩ := h.exists_level
  have hraises : ∀ source target, draft.netlist.Copies source target →
      level source < level target := by
    intro source target hcopies
    obtain ⟨link, hlink, rfl⟩ := hcopies
    exact hlevel source link hlink
  have hset : ∀ node ∈ (component.rootPlaced sharing).result.builtInOutputs,
      (component.rootPlaced sharing).result.Sets node :=
    fun node hnode => .inr (Gate.mem_builtInOutputs.mp hnode)
  refine ⟨fun gate hgate role => ?_, fun node hcycle => ?_, h.links_apart,
    fun node bits hraise link hlink => h.raised_apart hraise hlink, h.nodup_builtInOutputs,
    fun node hnode => h.linksInto_eq_nil (hset node hnode),
    fun node hnode => h.linksInto_eq_nil (.inl hnode), fun node hnode hout => ?_,
    fun cascade => cascade.exists_endsIn hbound hlevel⟩
  · exact (h.housed gate hgate role).imp fun _ node hnode =>
      ⟨(h.executed.hasWidths.width_eq node hnode.2).trans hnode.1, hnode.2⟩
  · have hlt : level node < level node := by
      refine Relation.TransGen.trans_induction_on
        (motive := fun {a b} _ => level a < level b) hcycle (fun hstep => hraises _ _ hstep)
        (fun _ _ => Nat.lt_trans)
    exact Nat.lt_irrefl _ hlt
  · obtain ⟨site, chip, hgate, houtput⟩ := Gate.mem_builtInOutputs.mp hout
    exact @not_entry _ _ h.fitted (.gate (.builtIn site chip)) node hgate houtput hnode

end Rendered

end Component

/-- Whatever has been built, at whatever depth, is placed without a fault, and then no bit has two
drivers. -/
theorem Built.exists_soleDrivers {component : Component} (h : Built component) (sharing : Bool) :
    ∃ draft, Draft.empty.executeAll (component.placeRoot sharing).statements = .ok draft ∧
      SoleDrivers (component.placeRoot sharing).result (component.placeRoot sharing).statements
        draft.netlist := by
  obtain ⟨width, draft, hdraft, hrendered⟩ := exists_rendered sharing h.fitted
  exact ⟨draft, hdraft, hrendered.soleDrivers⟩

theorem Built.exists_soleDrivers_toggler : ∃ component draft,
    Blueprint.toggler.build = .ok component ∧ Built component ∧
    Draft.empty.executeAll (component.placeRoot true).statements = .ok draft ∧
    SoleDrivers (component.placeRoot true).result (component.placeRoot true).statements
      draft.netlist := by
  obtain ⟨component, hbuild, hstandard⟩ := Blueprint.exists_toggler
  obtain ⟨draft, hdraft, hsole⟩ := Built.exists_soleDrivers hstandard.built true
  exact ⟨component, draft, hbuild, hstandard.built, hdraft, hsole⟩

end ClockedLogic
