import ModuleGraph.Proofs.Digraph.Reader

/-!
# A graph recovered from its rendering

A digraph that a graph is rendered as is read back as the nodes and edges of that graph
(`parse?_dot`), whatever graph it is. The statements are read from the last to the first: if what
follows a statement is read after any blanks, so is the statement with what follows it
(`Reads.node`, `Reads.edge`). The blanks are those that the line before has left behind.
-/

namespace ModuleGraph

open Text Statement

namespace Digraph

/-! ## The parts of a statement -/

theorem blanks_indent {b : List Char} (hb : Blanks b) : Blanks (b ++ Graph.dotIndent) := by
  intro c hc
  rcases List.mem_append.1 hc with hc | hc
  · exact hb c hc
  · rw [(List.mem_replicate.1 hc).2]
    decide

theorem expect?_append {b : List Char} (hb : Blanks b) (word rest : List Char)
    (hw : Stops isBlank (word ++ rest)) : expect? word (b ++ (word ++ rest)) = some rest := by
  rw [expect?, trimStart_append hb hw, after?_append]

theorem quoted?_append {b : List Char} (hb : Blanks b) (s : String) (rest : List Char) :
    quoted? (b ++ (Graph.dotQuoted s ++ rest)) = some (s, rest) := by
  have hquote : expect? ['"'] (b ++ (Graph.dotQuoted s ++ rest)) =
      some (replaced '"' ['\\', '"'] (replaced '\\' ['\\', '\\'] s.toList) ++ '"' :: rest) := by
    rw [Graph.dotQuoted, flatMap_dotEscape, List.cons_append, List.cons_append, List.append_assoc]
    exact expect?_append hb ['"'] _ (stops_cons.2 (by decide))
  rw [quoted?, hquote]
  simp only [Option.bind_eq_bind, Option.bind_some, string?_replaced, String.ofList_toList,
    Option.pure_def]

theorem dotLabel_append (s : String) (rest : List Char) :
    Graph.dotLabel s ++ rest =
      [' '] ++ (opening ++ (Graph.dotQuoted s ++ (closing ++ '\n' :: rest))) := by
  have hopen : " [label=".toList = ' ' :: opening := by decide
  have hclose : "];\n".toList = closing ++ ['\n'] := by decide
  unfold Graph.dotLabel
  rw [hopen, hclose]
  simp only [List.append_assoc, List.cons_append, List.nil_append]

theorem label?_append (s : String) (rest : List Char) :
    label? (Graph.dotLabel s ++ rest) = some (s, '\n' :: rest) := by
  have hopen := expect?_append blanks_space opening
    (Graph.dotQuoted s ++ (closing ++ '\n' :: rest)) (stops_cons.2 (by decide))
  have hlabel := quoted?_append blanks_nil s (closing ++ '\n' :: rest)
  have hclose := expect?_append blanks_nil closing ('\n' :: rest) (stops_cons.2 (by decide))
  rw [List.nil_append] at hlabel hclose
  rw [label?, dotLabel_append]
  simp only [hopen, hlabel, hclose, Option.bind_eq_bind, Option.bind_some, Option.pure_def]

theorem expect?_arrow_label (s : String) (rest : List Char) :
    expect? arrow (Graph.dotLabel s ++ rest) = none := by
  have hstops : Stops isBlank (opening ++ (Graph.dotQuoted s ++ (closing ++ '\n' :: rest))) :=
    stops_cons.2 (by decide)
  rw [expect?, dotLabel_append, trimStart_append blanks_space hstops]
  rfl

theorem item?_node {b : List Char} (hb : Blanks b) (node : Node) (rest : List Char) :
    item? (b ++ (Graph.dotNode node ++ rest)) =
      some (.node node.id.text node.label, '\n' :: rest) := by
  have hid := quoted?_append (blanks_indent hb) node.id.text (Graph.dotLabel node.label ++ rest)
  rw [Graph.dotNode, item?]
  simp only [List.append_assoc] at hid ⊢
  simp only [hid, Option.bind_eq_bind, Option.bind_some, expect?_arrow_label, label?_append,
    Option.pure_def]

theorem item?_edge {b : List Char} (hb : Blanks b) (edge : Edge) (rest : List Char) :
    item? (b ++ (Graph.dotEdge edge ++ rest)) =
      some (.edge edge.source.text edge.target.text (", ".intercalate edge.names),
        '\n' :: rest) := by
  have hsource := quoted?_append (blanks_indent hb) edge.source.text (" -> ".toList ++
    (Graph.dotQuoted edge.target.text ++ (Graph.dotLabel (", ".intercalate edge.names) ++ rest)))
  have harrow : ∀ rest : List Char,
      expect? arrow (" -> ".toList ++ rest) = some (' ' :: rest) := fun rest =>
    expect?_append blanks_space arrow (' ' :: rest) (stops_cons.2 (by decide))
  have htarget := quoted?_append blanks_space edge.target.text
    (Graph.dotLabel (", ".intercalate edge.names) ++ rest)
  rw [List.singleton_append] at htarget
  rw [Graph.dotEdge, item?]
  simp only [List.append_assoc] at hsource ⊢
  simp only [hsource, harrow, htarget, Option.bind_eq_bind, Option.bind_some, label?_append,
    Option.pure_def]

/-! ## The statements, from the last to the first -/

/-- After any blanks, `cs` is read as the statements of `d` and the end. -/
def Reads (cs : List Char) (d : Digraph) : Prop :=
  ∀ b : List Char, Blanks b → body? (b ++ cs) = some d

theorem body?_of_item {cs rest : List Char} {item : Item} (h : item? cs = some (item, rest)) :
    body? cs = (body? rest).map item.before := by
  rw [body?]
  split
  · next heq =>
    rw [h] at heq
    cases heq
    rfl
  · next heq =>
    rw [h] at heq
    cases heq

theorem Reads.end : Reads "\x7d\n".toList {} := by
  intro b hb
  have htrim : trimStart (b ++ "\x7d\n".toList) = "\x7d\n".toList :=
    trimStart_append hb (stops_cons.2 (by decide))
  have hnone : item? (b ++ "\x7d\n".toList) = none := by
    rw [item?, quoted?, expect?, htrim]
    rfl
  rw [body?]
  split
  · next heq =>
    rw [hnone] at heq
    cases heq
  · rw [end?, expect?, htrim]
    rfl

theorem Reads.node {cs : List Char} {d : Digraph} (h : Reads cs d) (node : Node) :
    Reads (Graph.dotNode node ++ cs) { d with nodes := (node.id.text, node.label) :: d.nodes } := by
  intro b hb
  have hrest : body? ('\n' :: cs) = some d := h _ blanks_newline
  rw [body?_of_item (item?_node hb node cs), hrest]
  rfl

theorem Reads.edge {cs : List Char} {d : Digraph} (h : Reads cs d) (edge : Edge) :
    Reads (Graph.dotEdge edge ++ cs)
      { d with edges :=
          (edge.source.text, edge.target.text, ", ".intercalate edge.names) :: d.edges } := by
  intro b hb
  have hrest : body? ('\n' :: cs) = some d := h _ blanks_newline
  rw [body?_of_item (item?_edge hb edge cs), hrest]
  rfl

theorem Reads.edges {cs : List Char} {d : Digraph} (h : Reads cs d) (edges : List Edge) :
    Reads (edges.flatMap Graph.dotEdge ++ cs)
      { d with edges := edges.map (fun edge =>
          (edge.source.text, edge.target.text, ", ".intercalate edge.names)) ++ d.edges } := by
  induction edges with
  | nil => exact h
  | cons edge edges ih =>
      rw [List.flatMap_cons, List.append_assoc]
      exact ih.edge edge

theorem Reads.nodes {cs : List Char} {d : Digraph} (h : Reads cs d) (nodes : List Node) :
    Reads (nodes.flatMap Graph.dotNode ++ cs)
      { d with nodes := nodes.map (fun node => (node.id.text, node.label)) ++ d.nodes } := by
  induction nodes with
  | nil => exact h
  | cons node nodes ih =>
      rw [List.flatMap_cons, List.append_assoc]
      exact ih.node node

/-- The rendering of a graph is read back as its nodes and its edges, in their order. -/
theorem parse?_dot (g : Graph) :
    parse? g.dot = some
      { nodes := g.nodes.toList.map fun node => (node.id.text, node.label)
        edges := g.edges.map fun edge =>
          (edge.source.text, edge.target.text, ", ".intercalate edge.names) } := by
  have hbody := (Reads.end.edges g.edges).nodes g.nodes.toList _ blanks_newline
  have hopen : "digraph imports \x7b\n".toList = [] ++ (header ++ ['\n']) := by decide
  unfold parse? Graph.dot
  rw [String.toList_ofList, hopen]
  simp only [List.append_assoc]
  rw [expect?_append blanks_nil header _ (stops_cons.2 (by decide)), Option.bind_some]
  simpa only [List.append_nil] using hbody

end Digraph

end ModuleGraph
