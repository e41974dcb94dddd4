import ClockedLogic.Proofs.BlueprintWiring
import ClockedLogic.Proofs.Feasibility
import ClockedLogic.Proofs.GateTree
import ClockedLogic.Proofs.Listening

/-!
The gates that a component is placed as. There is one gate for every occurrence of a component in
the tree of parts, and each comes after its parts, of which no other gate has any. Placing adds
these gates to those that are there, and each of them listens to its inputs and to nothing else.
-/

namespace ClockedLogic

namespace Component

mutual

/-- The components of all parts at all depths and the component itself, each as often as it occurs
and after its own parts. -/
def occurrences : Component → List Component
  | builtIn interface chip => [builtIn interface chip]
  | composite interface internals parts dependencies =>
    occurrencesIn parts ++ [composite interface internals parts dependencies]

def occurrencesIn : List (Part Component) → List Component
  | [] => []
  | ⟨component, _, _⟩ :: parts => occurrences component ++ occurrencesIn parts

end

theorem occurrencesIn_eq_flatMap (parts : List (Part Component)) :
    occurrencesIn parts = parts.flatMap fun part => part.component.occurrences := by
  induction parts with
  | nil => rfl
  | cons part parts ih => rw [occurrencesIn, ih, List.flatMap_cons]

end Component

namespace Gate

variable {gate owner part : Gate}

/-- The parts of all gates inside some gates, with these gates themselves, are all gates inside. -/
theorem perm_parts_allOf {gates : List Gate}
    (h : ∀ gate ∈ gates, (gate.all.flatMap parts ++ [gate]).Perm gate.all) :
    ((allOf gates).flatMap parts ++ gates).Perm (allOf gates) := by
  induction gates with
  | nil => exact .nil
  | cons gate gates ih =>
    obtain ⟨hgate, hgates⟩ := List.forall_mem_cons.mp h
    have hmove : (gate.all.flatMap parts ++ (allOf gates).flatMap parts ++ gate :: gates).Perm
        ((gate.all.flatMap parts ++ [gate]) ++ ((allOf gates).flatMap parts ++ gates)) := by
      rw [List.append_assoc, List.append_assoc, List.singleton_append]
      exact List.perm_middle.append_left _
    rw [allOf, List.flatMap_append]
    exact hmove.trans (hgate.append (ih hgates))

/-- The parts of all gates inside a gate, with the gate itself, are all gates inside. -/
theorem perm_parts_all (gate : Gate) : (gate.all.flatMap parts ++ [gate]).Perm gate.all := by
  induction gate using Gate.inductionOn with
  | builtIn site chip => exact .refl _
  | composite site internals gates ih =>
    have hparts : (all (composite site internals gates)).flatMap parts =
        (allOf gates).flatMap parts ++ gates := by
      rw [all, List.flatMap_append, List.flatMap_singleton]
      rfl
    rw [hparts, all]
    exact (perm_parts_allOf ih).append_right _

/-- In the order of their indices, gates come after their parts. -/
theorem index_lt_of_part (h : (gate.all.map index).Pairwise (· < ·)) (howner : owner ∈ gate.all)
    (hpart : part ∈ owner.parts) : part.index < owner.index := by
  have hinside := h.sublist ((all_sublist howner).map index)
  cases owner with
  | builtIn => cases hpart
  | composite site internals gates =>
    rw [all, List.map_append, List.pairwise_append] at hinside
    have hbefore : part ∈ allOf gates := mem_allOf_iff.mpr ⟨part, hpart, part.mem_all_self⟩
    exact hinside.2.2 _ (List.mem_map_of_mem hbefore) _
      (List.mem_map_of_mem (List.mem_singleton_self _))

/-- How often a gate is a part: once, or not at all if it is the outermost one. -/
theorem count_index_parts (h : gate.Distinct) {inner : Gate} (hinner : inner ∈ gate.all) :
    ((gate.all.flatMap parts).map index).count inner.index =
      if inner.index = gate.index then 0 else 1 := by
  have hcount := ((perm_parts_all gate).map index).count_eq inner.index
  rw [List.count_eq_one_of_mem h (List.mem_map_of_mem hinner), List.map_append, List.count_append,
    List.map_singleton, List.count_singleton] at hcount
  split
  · rename_i hsame
    rw [hsame, beq_self_eq_true, if_pos rfl] at hcount
    rw [hsame]
    omega
  · rename_i hdiffer
    rw [if_neg (by simpa using Ne.symm hdiffer)] at hcount
    omega

structure Unfolds (component : Component) (root : Gate) : Prop where
  component_eq : root.component = component
  last : root.all.getLast? = some root
  /-- Parts are there before their owner. -/
  earlier : ∀ owner ∈ root.all, ∀ part ∈ owner.parts, part ∈ root.all ∧ part.index < owner.index
  /-- In all lists of parts together, each gate but the outermost one is listed once. -/
  owned : ∀ gate ∈ root.all, ((root.all.flatMap parts).map index).count gate.index =
    if gate.index = root.index then 0 else 1
  parts_eq : ∀ owner ∈ root.all,
    owner.parts.map Gate.component = owner.component.parts.map Part.component
  occurrences : root.all.map Gate.component = component.occurrences

end Gate

namespace Component

variable {sharing : Bool} {scope : Scope}

theorem component_placeParts (parts : List (Part Component)) (cursor : Cursor) :
    (placeParts sharing scope parts cursor).result.map Gate.component =
      parts.map Part.component := by
  rw [result_placeParts, List.map_map]
  conv_rhs => rw [← part_placeEach sharing scope parts cursor, List.map_map]
  refine List.map_congr_left fun placed hplaced => ?_
  exact (mem_placeEach hplaced).2.1.isPlaced.component_eq

theorem parts_place (component : Component) (inputs outputs : List Nat) (cursor : Cursor) :
    ∀ owner ∈ (component.place sharing inputs outputs cursor).result.all,
      owner.parts.map Gate.component = owner.component.parts.map Part.component := by
  induction component using Component.inductionOn generalizing inputs outputs cursor with
  | builtIn interface chip =>
    intro owner howner
    rw [place, Gate.all, List.mem_singleton] at howner
    rw [howner]
    rfl
  | composite interface internals parts dependencies ih =>
    intro owner howner
    rw [place] at howner
    rcases Gate.mem_all_iff.mp howner with rfl | ⟨gate, hgate, hinside⟩
    · exact component_placeParts parts _
    · simp only [Gate.parts, result_placeParts] at hgate
      obtain ⟨placed, hplaced, rfl⟩ := List.mem_map.mp hgate
      obtain ⟨hpart, hplaces, -⟩ := mem_placeEach hplaced
      rw [hplaces.gate_eq] at hinside
      exact ih placed.part hpart _ _ _ owner hinside

theorem occurrences_place (component : Component) (inputs outputs : List Nat) (cursor : Cursor) :
    (component.place sharing inputs outputs cursor).result.all.map Gate.component =
      component.occurrences := by
  induction component using Component.inductionOn generalizing inputs outputs cursor with
  | builtIn interface chip => rw [place]; rfl
  | composite interface internals parts dependencies ih =>
    have hparts : ∀ scope cursor,
        (Gate.allOf (placeParts sharing scope parts cursor).result).map Gate.component =
          occurrencesIn parts := by
      intro scope cursor
      rw [Gate.allOf_eq_flatMap, result_placeParts, List.flatMap_map, List.map_flatMap,
        occurrencesIn_eq_flatMap]
      conv_rhs => rw [← part_placeEach sharing scope parts cursor, List.flatMap_map]
      refine List.flatMap_congr fun placed hplaced => ?_
      obtain ⟨hpart, hplaces, -⟩ := mem_placeEach hplaced
      rw [hplaces.gate_eq]
      exact ih placed.part hpart _ _ _
    rw [place, Gate.all, List.map_append, hparts, occurrences]
    rfl

theorem unfolds_place (component : Component) (inputs outputs : List Nat) (cursor : Cursor) :
    (component.place sharing inputs outputs cursor).result.Unfolds component := by
  have hplaced := isPlaced sharing component inputs outputs cursor
  have hparts := @parts_place sharing component inputs outputs cursor
  have hoccurrences := @occurrences_place sharing component inputs outputs cursor
  generalize component.place sharing inputs outputs cursor = placed at *
  have hsorted : (placed.result.all.map Gate.index).Pairwise (· < ·) := by
    rw [hplaced.indices]
    exact List.pairwise_lt_range'
  have hdistinct : placed.result.Distinct := hsorted.imp Nat.ne_of_lt
  exact {
    component_eq := hplaced.component_eq
    last := placed.result.getLast?_all
    earlier := fun owner howner part hpart =>
      ⟨Gate.part_mem_all howner hpart, Gate.index_lt_of_part hsorted howner hpart⟩
    owned := fun gate hgate => Gate.count_index_parts hdistinct hgate
    parts_eq := hparts
    occurrences := hoccurrences }

/-- The widths of nodes, some of which are there already and some of which are about to be
added. -/
theorem exists_hasWidth {draft : Draft} (h : draft.HasWidths draft.netlist.width)
    (statements : List Statement) : ∃ width : Nat → Nat, draft.HasWidths width ∧
      (∀ node < draft.size, width node = draft.netlist.width node) ∧
      Statement.Throughout (Statement.HasWidth width) draft.size statements := by
  let known := (List.range draft.size).map fun node => Statement.node (draft.netlist.width node)
  have hknown : widthsOf known = (List.range draft.size).map draft.netlist.width := by
    simp [known, widthsOf, List.filterMap_map]
  have hcount : Statement.nodeCount known = draft.size := by
    rw [← length_widthsOf, hknown, List.length_map, List.length_range]
  have hsame : ∀ node < draft.size,
      (widthsOf (known ++ statements)).getD node 0 = draft.netlist.width node := by
    intro node hnode
    have hwidths : widthsOf (known ++ statements) = widthsOf known ++ widthsOf statements :=
      List.filterMap_append
    rw [hwidths, hknown, List.getD_eq_getElem?_getD,
      List.getElem?_append_left (by simpa using hnode)]
    simp [hnode]
  refine ⟨fun node => (widthsOf (known ++ statements)).getD node 0, ⟨h.listeners_size,
    h.values_size, fun node hnode => (hsame node hnode).symm, fun node hnode => ?_⟩, hsame, ?_⟩
  · rw [hsame node hnode]
    exact h.width_le node hnode
  · have hwidths := hasWidth_widthsOf known statements
    rwa [hcount] at hwidths

end Component

open Scope (HousePins)

/-- Placing whatever has been built, at nodes of any draft and after any gates that listen to it,
cannot fail. It adds a gate for each occurrence of a component in the tree of parts, the outermost
one last, and each of all the gates is listed once at each of its inputs and nowhere else. -/
theorem Built.exists_unfolded {component : Component} (h : Built component) (sharing : Bool)
    {draft : Draft} {gates : List Gate} {inputs outputs : List Nat}
    (hwidths : draft.HasWidths draft.netlist.width) (hears : draft.Hears gates)
    (hinputs : HousePins draft.netlist.width draft.size component.inputs inputs)
    (houtputs : HousePins draft.netlist.width draft.size component.outputs outputs) :
    let placed := component.place sharing inputs outputs ⟨draft.size, gates.length⟩
    ∃ grown, draft.executeAll placed.statements = .ok grown ∧
      grown.HasWidths grown.netlist.width ∧ grown.Hears (gates ++ placed.result.all) ∧
      placed.result.Unfolds component ∧
      placed.result.all.length = component.occurrences.length := by
  intro placed
  obtain ⟨width, hdraft, hsame, hadded⟩ := Component.exists_hasWidth hwidths placed.statements
  have hhouse : ∀ {pins : List Pin} {nodes : List Nat},
      HousePins draft.netlist.width draft.size pins nodes →
      HousePins width draft.size pins nodes := by
    intro pins nodes hpins
    exact hpins.imp fun _ node hnode => ⟨(hsame node hnode.2).trans hnode.1, hnode.2⟩
  -- the pins have nodes of their widths, so that no statement can fail
  obtain ⟨hfeasible, -⟩ := Component.canBePlaced h.fitted inputs outputs
    ⟨draft.size, gates.length⟩ (hhouse hinputs) (hhouse houtputs) hadded
  obtain ⟨grown, hgrown, hexecuted⟩ := Draft.executeAll_eq_ok hdraft hadded hfeasible
  have hplaced := Component.isPlaced sharing component inputs outputs ⟨draft.size, gates.length⟩
  have hunfolds := @Component.unfolds_place sharing component inputs outputs
    ⟨draft.size, gates.length⟩
  refine ⟨grown, hgrown, hexecuted.hasWidths.self, ?_, hunfolds, ?_⟩
  · exact hears.executeAll hgrown hexecuted hplaced.indices hplaced.listens
  · rw [← hunfolds.occurrences, List.length_map]

/-- A gate that reads one pin twice, and an inverter behind it. -/
def Blueprint.doubled : Blueprint where
  name := "Doubled"
  inputs := [("in", 1)]
  outputs := [("out", 1)]
  clocked := []
  parts := [(Primitive.and.component, [("a", "in"), ("b", "in"), ("out", "both")]),
    (Primitive.not.component, [("in", "both"), ("out", "out")])]
  chip := none

/-- Three gates of which two listen to the input, the one that reads it twice no oftener than its
owner. -/
theorem Built.exists_unfolded_doubled : ∃ component,
    Blueprint.doubled.build = .ok component ∧ Built component ∧
    component.occurrences.map Component.name = ["And", "Not", "Doubled"] ∧
    ∃ grown, ((Draft.empty.addNode 1).addNode 1).executeAll
        (component.place true [0] [1] ⟨2, 0⟩).statements = .ok grown ∧
      (component.place true [0] [1] ⟨2, 0⟩).result.all.length = 3 ∧
      (grown.netlist.listenersOf 0).count (.gate 0) = 1 ∧
      (grown.netlist.listenersOf 0).count (.gate 1) = 0 ∧
      (grown.netlist.listenersOf 0).count (.gate 2) = 1 := by
  have hok : (Blueprint.doubled.build.toOption.any fun component =>
      component.inputs = [⟨"in", 1, .input, 0⟩] && component.outputs = [⟨"out", 1, .output, 0⟩] &&
        component.occurrences.map Component.name = ["And", "Not", "Doubled"] &&
        (component.place true [0] [1] ⟨2, 0⟩).result.all.map (fun gate => (gate.index, gate.inputs))
          = [(0, [0, 0]), (1, [2]), (2, [0])]) = true := by decide +kernel
  obtain ⟨component, hbuild, hpins⟩ := exists_of_any_toOption hok
  simp only [Bool.and_eq_true, decide_eq_true_eq, and_assoc] at hpins
  obtain ⟨hinputs, houtputs, hnames, hgates⟩ := hpins
  have hbuilt : Built component := by
    refine .build (fun part hpart => ?_) hbuild
    simp only [Blueprint.doubled, List.mem_cons, List.not_mem_nil, or_false] at hpart
    rcases hpart with rfl | rfl
    · exact .primitive .and
    · exact .primitive .not
  have hwidths : ((Draft.empty.addNode 1).addNode 1).HasWidths
      ((Draft.empty.addNode 1).addNode 1).netlist.width :=
    ⟨rfl, rfl, fun _ _ => rfl, by decide⟩
  have hears : ((Draft.empty.addNode 1).addNode 1).Hears [] := by
    refine ⟨by simp, by simp, fun node index hlistens => ?_⟩
    rw [Draft.addNode, Netlist.listenersOf_addNode, Draft.addNode, Netlist.listenersOf_addNode]
      at hlistens
    cases hlistens
  have hin : HousePins ((Draft.empty.addNode 1).addNode 1).netlist.width 2 component.inputs
      [0] := by
    rw [hinputs]
    exact .cons (by decide) .nil
  have hout : HousePins ((Draft.empty.addNode 1).addNode 1).netlist.width 2 component.outputs
      [1] := by
    rw [houtputs]
    exact .cons (by decide) .nil
  obtain ⟨grown, hgrown, -, hlists, -, hlength⟩ :=
    Built.exists_unfolded hbuilt true hwidths hears hin hout
  have hcount : ∀ (position index : Nat) (inputs : List Nat),
      [(0, [0, 0]), (1, [2]), (2, [0])][position]? = some (index, inputs) →
      (grown.netlist.listenersOf 0).count (.gate index) = if 0 ∈ inputs then 1 else 0 := by
    intro position index inputs hposition
    rw [← hgates, List.getElem?_map, Option.map_eq_some_iff] at hposition
    obtain ⟨gate, hgate, hsame⟩ := hposition
    cases hsame
    exact hlists.count_eq gate (List.mem_of_getElem? hgate) 0
  refine ⟨component, hbuild, hbuilt, hnames, grown, hgrown, ?_, hcount 0 0 _ rfl, hcount 1 1 _ rfl,
    hcount 2 2 _ rfl⟩
  refine hlength.trans ?_
  rw [← List.length_map Component.name, hnames]
  rfl

end ClockedLogic
