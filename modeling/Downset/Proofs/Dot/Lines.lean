import Downset.Dot
import Downset.Proofs.Text.Quoted
import Mathlib.Data.List.Basic

/-!
# The lines of a drawing

A drawing is written in lines: one for each node and then one for each edge, between a first and a
last line. No label breaks a line, because it is quoted. Each line shows where it ends and what it
stands for, so the whole text stands for one graph only.
-/

namespace Downset.Dot

/-- A line between the first and the last. -/
inductive Line
  | node (number : Nat) (label : String) (color : Color)
  | edge (lower upper : Nat)

def Line.text : Line → List Char
  | node number label color =>
    "    ".toList ++ decimal number ++ " [ label=".toList ++ Text.quoted label.toList ++
      " color=".toList ++ color.name.toList ++ "]".toList
  | edge lower upper =>
    "    ".toList ++ decimal lower ++ " -> ".toList ++ decimal upper ++ " [ ]".toList

def Graph.lines (graph : Graph) : List Line :=
  (graph.nodes.zipIdx.map fun node => .node node.2 node.1.1 node.1.2) ++
    graph.edges.map fun edge => .edge edge.1 edge.2

theorem nodeLine_eq (number : Nat) (node : String × Color) :
    nodeLine number node = (Line.node number node.1 node.2).text ++ ['\n'] := by
  have hend : "]\n".toList = "]".toList ++ ['\n'] := rfl
  unfold nodeLine Line.text
  simp only [hend, List.append_assoc]

theorem edgeLine_eq (edge : Nat × Nat) :
    edgeLine edge = (Line.edge edge.1 edge.2).text ++ ['\n'] := by
  have hend : " [ ]\n".toList = " [ ]".toList ++ ['\n'] := rfl
  unfold edgeLine Line.text
  simp only [hend, List.append_assoc]

theorem nodeLines_eq (first : Nat) (nodes : List (String × Color)) :
    nodeLines first nodes = (nodes.zipIdx first).flatMap fun node => nodeLine node.2 node.1 := by
  induction nodes generalizing first with
  | nil => rfl
  | cons node nodes ih => rw [nodeLines, ih, List.zipIdx_cons, List.flatMap_cons]

theorem layout_eq (graph : Graph) : graph.layout =
    "digraph \x7b\n".toList ++ (graph.lines.flatMap fun line => line.text ++ ['\n']) ++
      "\x7d\n".toList := by
  have hedge : edgeLine = fun edge => (Line.edge edge.1 edge.2).text ++ ['\n'] :=
    funext edgeLine_eq
  unfold Graph.layout Graph.lines
  simp only [nodeLines_eq, nodeLine_eq, hedge, List.flatMap_append, List.flatMap_map,
    List.append_assoc]

/-! ## Lines of a text -/

theorem splitOn_lines {lines : List (List Char)} (h : ∀ line ∈ lines, '\n' ∉ line) :
    (lines.flatMap (· ++ ['\n'])).splitOn '\n' = lines ++ [[]] := by
  have hjoin : ['\n'].intercalate (lines ++ [[]]) = lines.flatMap (· ++ ['\n']) := by
    clear h
    induction lines with
    | nil => rfl
    | cons line lines ih =>
      cases lines with
      | nil => simp [List.intercalate]
      | cons next lines => simpa [List.intercalate] using ih
  rw [← hjoin]
  apply List.splitOn_intercalate
  · simpa [or_imp, forall_and] using h
  · simp

theorem not_mem_decimal {c : Char} (hc : c.isDigit = false) (n : Nat) : c ∉ decimal n := by
  intro hmem
  have hdigit := Nat.isDigit_of_mem_toDigits (by decide) (by decide) hmem
  simp [hc] at hdigit

theorem Line.not_mem_text (line : Line) : '\n' ∉ line.text := by
  have hdecimal := not_mem_decimal (c := '\n') rfl
  cases line with
  | node number label color =>
    have hname : '\n' ∉ color.name.toList := by
      cases color <;> decide
    unfold text
    simp only [List.mem_append, hdecimal, Text.not_mem_quoted, hname, or_false]
    decide
  | edge lower upper =>
    unfold text
    simp only [List.mem_append, hdecimal, or_false]
    decide

/-- The lines of the text are those of the graph, between the first and the last. -/
theorem splitOn_layout (graph : Graph) :
    graph.layout.splitOn '\n' =
      "digraph \x7b".toList :: graph.lines.map Line.text ++ ["\x7d".toList, []] := by
  have hfirst : "digraph \x7b\n".toList = "digraph \x7b".toList ++ ['\n'] := rfl
  have hlast : "\x7d\n".toList = "\x7d".toList ++ ['\n'] := rfl
  have hlines : graph.layout = ("digraph \x7b".toList :: graph.lines.map Line.text ++
      ["\x7d".toList]).flatMap (· ++ ['\n']) := by
    simp only [layout_eq, hfirst, hlast, List.flatMap_append, List.flatMap_cons, List.flatMap_map,
      List.flatMap_nil, List.append_nil, List.append_assoc, List.cons_append]
  rw [hlines, splitOn_lines]
  · simp only [List.append_assoc, List.singleton_append]
  · intro line hline
    rcases List.mem_append.1 hline with hline | hline
    · rcases List.mem_cons.1 hline with rfl | hline
      · decide
      · obtain ⟨line, _, rfl⟩ := List.mem_map.1 hline
        exact line.not_mem_text
    · rw [List.mem_singleton.1 hline]
      decide

/-! ## One graph for each text -/

theorem delimited_decimal : Text.Delimited fun n => decimal n ++ [' '] :=
  Text.delimited_toDigits (by decide) (by decide) (by decide)

theorem delimited_name : Text.Delimited fun color : Color => color.name.toList := by
  intro color color' rest rest' heq
  cases color <;> cases color'
  · exact ⟨rfl, List.append_cancel_left heq⟩
  · exact absurd (List.cons.inj heq).1 (by decide)
  · exact absurd (List.cons.inj heq).1 (by decide)
  · exact ⟨rfl, List.append_cancel_left heq⟩

namespace Line

theorem delimited_node :
    Text.Delimited fun node : Nat × String × Color => (Line.node node.1 node.2.1 node.2.2).text := by
  have hlabel : Text.Delimited fun label : String => Text.quoted label.toList :=
    Text.delimited_quoted.comp fun _ _ => String.toList_inj.1
  have hcolor : Text.Delimited fun color : Color => " color=".toList ++ color.name.toList :=
    delimited_name.append_left " color=".toList
  have htail := (hlabel.pair hcolor).append_left "[ label=".toList
  have hall := ((delimited_decimal.pair htail).append "]".toList).append_left "    ".toList
  have hspace : " [ label=".toList = [' '] ++ "[ label=".toList := rfl
  intro node node' rest rest' heq
  apply hall
  unfold text at heq
  simp only [hspace, List.append_assoc] at heq ⊢
  exact heq

theorem delimited_edge :
    Text.Delimited fun edge : Nat × Nat => (Line.edge edge.1 edge.2).text := by
  have hupper := delimited_decimal.append_left "-> ".toList
  have hall := ((delimited_decimal.pair hupper).append "[ ]".toList).append_left "    ".toList
  have harrow : " -> ".toList = [' '] ++ "-> ".toList := rfl
  have hend : " [ ]".toList = [' '] ++ "[ ]".toList := rfl
  intro edge edge' rest rest' heq
  apply hall
  unfold text at heq
  simp only [harrow, hend, List.append_assoc] at heq ⊢
  exact heq

/-- Behind the first number a node has a bracket and an edge has an arrow. -/
theorem node_ne_edge {number lower upper : Nat} {label : String} {color : Color}
    {rest rest' : List Char} : (node number label color).text ++ rest ≠ (edge lower upper).text ++ rest' := by
  have hspace : " [ label=".toList = [' '] ++ "[ label=".toList := rfl
  have harrow : " -> ".toList = [' '] ++ "-> ".toList := rfl
  intro heq
  unfold text at heq
  simp only [hspace, harrow, List.append_assoc] at heq
  have hnumber := List.append_cancel_left heq
  rw [← List.append_assoc, ← List.append_assoc (decimal lower)] at hnumber
  have htail := (delimited_decimal hnumber).2
  exact absurd (List.cons.inj htail).1 (by decide)

theorem delimited_text : Text.Delimited text := by
  intro line line' rest rest' heq
  cases line with
  | node number label color =>
    cases line' with
    | node number' label' color' =>
      obtain ⟨hnode, hrest⟩ :=
        @delimited_node (number, label, color) (number', label', color') _ _ heq
      cases hnode
      exact ⟨rfl, hrest⟩
    | edge => exact absurd heq node_ne_edge
  | edge lower upper =>
    cases line' with
    | node => exact absurd heq.symm node_ne_edge
    | edge lower' upper' =>
      obtain ⟨hedge, hrest⟩ := @delimited_edge (lower, upper) (lower', upper') _ _ heq
      cases hedge
      exact ⟨rfl, hrest⟩

theorem exists_text (line : Line) : ∃ tail, line.text = ' ' :: tail := by
  cases line with
  | node | edge => exact ⟨_, rfl⟩

def node? : Line → Option (String × Color)
  | node _ label color => some (label, color)
  | edge .. => none

def edge? : Line → Option (Nat × Nat)
  | node .. => none
  | edge lower upper => some (lower, upper)

end Line

theorem lines_injective : Function.Injective Graph.lines := by
  have hnodes : ∀ graph : Graph, graph.lines.filterMap Line.node? = graph.nodes := by
    intro graph
    simp [Graph.lines, List.filterMap_map, Function.comp_def, Line.node?]
  have hedges : ∀ graph : Graph, graph.lines.filterMap Line.edge? = graph.edges := by
    intro graph
    simp [Graph.lines, List.filterMap_map, Function.comp_def, Line.edge?]
  intro graph graph' h
  have hnodes' := congrArg (List.filterMap Line.node?) h
  have hedges' := congrArg (List.filterMap Line.edge?) h
  rw [hnodes, hnodes] at hnodes'
  rw [hedges, hedges] at hedges'
  cases graph
  cases graph'
  simp_all

theorem delimited_layout : Text.Delimited Graph.layout := by
  have hlines : Text.Delimited fun lines : List Line =>
      (lines.flatMap fun line => line.text ++ ['\n']) ++ ['\x7d'] := by
    apply (Line.delimited_text.append ['\n']).list '\x7d'
    intro line
    obtain ⟨tail, htail⟩ := line.exists_text
    exact ⟨' ', tail ++ ['\n'], by rw [htail, List.cons_append], by decide⟩
  have hall := ((hlines.append ['\n']).append_left "digraph \x7b\n".toList).comp lines_injective
  have hend : "\x7d\n".toList = ['\x7d'] ++ ['\n'] := rfl
  intro graph graph' rest rest' heq
  apply hall
  simp only [layout_eq, hend, List.append_assoc] at heq ⊢
  exact heq

/-- No two graphs have the same text. -/
theorem render_injective : Function.Injective Graph.render := by
  intro graph graph' h
  exact delimited_layout.injective (String.ofList_injective h)

end Downset.Dot
