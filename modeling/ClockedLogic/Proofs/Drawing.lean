import ClockedLogic.Digraph.Dot
import ClockedLogic.Proofs.Escaping
import ClockedLogic.Proofs.InsertionOrder

/-!
Drawings lose nothing. The text of a graph consists of one line for each node and for each edge.
No line ends before its end, whatever characters a label holds, and each line can be read back, so
graphs that are drawn alike have the same labels and the same edges between the same positions.
-/

namespace ClockedLogic

inductive DrawnLine where
  | node (position : Nat) (label : List Char)
  | edge (source target : Nat)

namespace DrawnLine

def text : DrawnLine → List Char
  | node position label => "    ".toList ++ Nat.toDigits 10 position ++ " [ label = \"".toList ++
      Text.protect (Text.quote label) ++ "\" ]".toList
  | edge source target => "    ".toList ++ Nat.toDigits 10 source ++ " -> ".toList ++
      Nat.toDigits 10 target ++ " [ ]".toList

/-- What stands between the quotes of a line, and what comes after them. -/
def quoted? (line : List Char) : Option (List Char × List Char) :=
  Text.untilQuote (line.dropWhile (· ≠ '"')).tail

theorem text_node (position : Nat) (label : List Char) :
    (node position label).text = "    ".toList ++ (Nat.toDigits 10 position ++
      ' ' :: ("[ label = \"".toList ++
        (Text.protect (Text.quote label) ++ '"' :: " ]".toList))) := by
  unfold text
  simp only [String.reduceToList, List.append_assoc, List.cons_append, List.nil_append]

theorem text_edge (source target : Nat) :
    (edge source target).text = "    ".toList ++ (Nat.toDigits 10 source ++
      ' ' :: ("-> ".toList ++ (Nat.toDigits 10 target ++ ' ' :: "[ ]".toList))) := by
  unfold text
  simp only [String.reduceToList, List.append_assoc, List.cons_append, List.nil_append]

theorem text_injective : Function.Injective text := by
  intro line other h
  cases line with
  | node position label =>
    cases other with
    | node position' label' =>
      rw [text_node, text_node, List.append_right_inj] at h
      obtain ⟨rfl, hafter⟩ := Text.toDigits_append_inj h
      rw [List.append_right_inj] at hafter
      rw [(Text.protect_quote_append_inj hafter).1]
    | edge source target =>
      rw [text_node, text_edge, List.append_right_inj] at h
      have hafter := (Text.toDigits_append_inj h).2
      simp only [String.reduceToList, List.cons_append, List.cons.injEq, Char.reduceEq,
        false_and] at hafter
  | edge source target =>
    cases other with
    | node position label =>
      rw [text_node, text_edge, List.append_right_inj] at h
      have hafter := (Text.toDigits_append_inj h).2
      simp only [String.reduceToList, List.cons_append, List.cons.injEq, Char.reduceEq,
        false_and] at hafter
    | edge source' target' =>
      rw [text_edge, text_edge, List.append_right_inj] at h
      obtain ⟨rfl, hafter⟩ := Text.toDigits_append_inj h
      rw [List.append_right_inj] at hafter
      rw [(Text.toDigits_append_inj hafter).1]

theorem newline_notMem_text (line : DrawnLine) : '\n' ∉ line.text := by
  have hdigits : ∀ n, '\n' ∉ Nat.toDigits 10 n := Text.notMem_toDigits rfl
  cases line with
  | node position label =>
    simp only [text_node, String.reduceToList, List.mem_append, List.mem_cons, hdigits,
      Text.newline_notMem_protect_quote label]
    decide
  | edge source target =>
    simp only [text_edge, String.reduceToList, List.mem_append, List.mem_cons, hdigits]
    decide

/-- The label stands between the quotes of its line, and does not close them. -/
theorem quoted?_node (position : Nat) (label : List Char) :
    quoted? (node position label).text =
      some (Text.protect (Text.quote label), " ]".toList) := by
  have hopening : ∀ c ∈ "    ".toList ++ (Nat.toDigits 10 position ++ " [ label = ".toList),
      decide (c ≠ '"') = true := by
    intro c hc
    rw [decide_eq_true_iff]
    rintro rfl
    rcases List.mem_append.mp hc with hblank | hc
    · exact absurd hblank (by decide)
    · rcases List.mem_append.mp hc with hdigit | hword
      · exact Text.notMem_toDigits rfl position hdigit
      · exact absurd hword (by decide)
  have hline : (node position label).text = ("    ".toList ++ (Nat.toDigits 10 position ++
      " [ label = ".toList)) ++ '"' :: (Text.protect (Text.quote label) ++ '"' :: " ]".toList) := by
    simp only [text_node, String.reduceToList, List.append_assoc, List.cons_append,
      List.nil_append]
  rw [quoted?, hline, List.dropWhile_append_of_pos hopening, List.dropWhile_cons_of_neg (by decide),
    List.tail_cons, Text.untilQuote_protect]

/-- A quote is escaped once when the label is quoted, and its escape once more. -/
example : (node 2 "a\"b".toList).text = "    2 [ label = \"\\\"a\\\\\\\"b\\\"\" ]".toList := by
  decide +kernel

/-- The label of a line. -/
def label? : DrawnLine → Option String
  | node _ label => some (String.ofList label)
  | edge .. => none

def ends? : DrawnLine → Option (Nat × Nat)
  | node .. => none
  | edge source target => some (source, target)

end DrawnLine

/-- The lines of nodes with given labels, in their order, and of the edges between them. -/
def drawing (labels : List String) (edges : List (Nat × Nat)) : List DrawnLine :=
  labels.zipIdx.map (fun (label, position) => .node position label.toList) ++
    edges.map fun (source, target) => .edge source target

theorem drawing_inj {labels labels' : List String} {edges edges' : List (Nat × Nat)} :
    drawing labels edges = drawing labels' edges' ↔ labels = labels' ∧ edges = edges' := by
  have hlabels : ∀ labels edges, (drawing labels edges).filterMap DrawnLine.label? = labels := by
    intro labels edges
    simp [drawing, List.filterMap_map, Function.comp_def, DrawnLine.label?]
  have hedges : ∀ labels edges, (drawing labels edges).filterMap DrawnLine.ends? = edges := by
    intro labels edges
    simp [drawing, List.filterMap_map, Function.comp_def, DrawnLine.ends?]
  constructor
  · intro h
    exact ⟨by rw [← hlabels labels edges, h, hlabels], by rw [← hedges labels edges, h, hedges]⟩
  · rintro ⟨rfl, rfl⟩
    rfl

/-- Lines that do not end before their ends are told apart where they end. -/
theorem splitOn_lines {lines : List (List Char)} (h : ∀ line ∈ lines, '\n' ∉ line)
    (rest : List Char) :
    (lines.flatMap (· ++ ['\n']) ++ rest).splitOn '\n' = lines ++ rest.splitOn '\n' := by
  induction lines with
  | nil => rfl
  | cons line lines ih =>
    obtain ⟨hline, hlines⟩ := List.forall_mem_cons.mp h
    rw [List.flatMap_cons, List.append_assoc, List.append_assoc, List.singleton_append,
      List.splitOn_append_cons_self_of_not_mem hline, ih hlines, List.cons_append]

namespace Digraph

variable {α β : Type}

theorem dotNode_eq (position : Nat) (label : List Char) :
    dotNode position label = (DrawnLine.node position label).text ++ ['\n'] := by
  unfold dotNode DrawnLine.text
  simp only [String.reduceToList, List.append_assoc, List.cons_append, List.nil_append]

theorem dotEdge_eq (source target : Nat) :
    dotEdge source target = (DrawnLine.edge source target).text ++ ['\n'] := by
  unfold dotEdge DrawnLine.text
  simp only [String.reduceToList, List.append_assoc, List.cons_append, List.nil_append]

/-- The text of a graph is the text of its lines, between the first and the last one. -/
theorem dotChars_eq (graph : Digraph α) (label : α → String) :
    graph.dotChars label = "digraph \x7b\n".toList ++
      (((drawing (graph.nodes.map label) graph.edgePositions).map DrawnLine.text).flatMap
        (· ++ ['\n']) ++ "\x7d\n".toList) := by
  unfold dotChars drawing
  simp only [List.map_append, List.flatMap_append, List.flatMap_map, List.zipIdx_map,
    Prod.map_fst, Prod.map_snd, id_eq, dotNode_eq, dotEdge_eq, List.append_assoc]

/-- The lines of the text of a graph, each of them whole. -/
theorem splitOn_dotChars (graph : Digraph α) (label : α → String) :
    (graph.dotChars label).splitOn '\n' = "digraph \x7b".toList ::
      ((drawing (graph.nodes.map label) graph.edgePositions).map DrawnLine.text ++
        ["\x7d".toList, []]) := by
  have hlines : ∀ line ∈ (drawing (graph.nodes.map label) graph.edgePositions).map DrawnLine.text,
      '\n' ∉ line := List.forall_mem_map.mpr fun line _ => line.newline_notMem_text
  have hopening : '\n' ∉ "digraph \x7b".toList := by decide
  have hfirst : ∀ rest : List Char, ("digraph \x7b\n".toList ++ rest).splitOn '\n' =
      "digraph \x7b".toList :: rest.splitOn '\n' :=
    fun rest => List.splitOn_append_cons_self_of_not_mem hopening rest
  have hlast : ("\x7d\n".toList).splitOn '\n' = ["\x7d".toList, []] := by decide
  rw [dotChars_eq, hfirst, splitOn_lines hlines, hlast]

/-- Graphs with the same text have the same labels and the same edges, by their positions. -/
theorem dot_eq_iff (graph : Digraph α) (other : Digraph β) (label : α → String)
    (label' : β → String) : graph.dot label = other.dot label' ↔
      graph.nodes.map label = other.nodes.map label' ∧
        graph.edgePositions = other.edgePositions := by
  rw [dot, dot, String.ofList_inj, ← drawing_inj]
  constructor
  · intro h
    have hsplit := congrArg (List.splitOn '\n') h
    rw [splitOn_dotChars, splitOn_dotChars] at hsplit
    have hlines := List.append_cancel_right (List.cons.inj hsplit).2
    exact List.map_injective_iff.mpr DrawnLine.text_injective hlines
  · intro h
    rw [dotChars_eq, dotChars_eq, h]

variable [DecidableEq α] [DecidableEq β]

/-- The text of a graph tells just its labels, in the order of its nodes, and its edges, by the
indexes of their nodes and in their order. It has one line for each of them, and on the line of a
node its label stands between quotes that it does not close, with nothing but plain characters. -/
theorem dot_eq_dot_iff (mentions : List (Mention α)) (others : List (Mention β))
    (label : α → String) (label' : β → String) :
    ((grown mentions).dot label = (grown others).dot label' ↔
      (grown mentions).nodes.map label = (grown others).nodes.map label' ∧
        (grown mentions).edgeIndexes = (grown others).edgeIndexes) ∧
    ((grown mentions).dot label).toList.splitOn '\n' = "digraph \x7b".toList ::
      ((drawing ((grown mentions).nodes.map label) (grown mentions).edgeIndexes).map
        DrawnLine.text ++ ["\x7d".toList, []]) ∧
    ∀ (position : Nat) (name : List Char),
      DrawnLine.quoted? (DrawnLine.node position name).text =
        some (Text.protect (Text.quote name), " ]".toList) ∧
      ∀ c ∈ Text.protect (Text.quote name), Text.isPlain c = true := by
  rw [(grown_spec mentions).1.edgeIndexes_eq, (grown_spec others).1.edgeIndexes_eq]
  refine ⟨dot_eq_iff .., ?_, fun position name =>
    ⟨DrawnLine.quoted?_node position name, fun c => Text.isPlain_of_mem_protect_quote⟩⟩
  rw [dot, String.toList_ofList, splitOn_dotChars]

end Digraph

end ClockedLogic
