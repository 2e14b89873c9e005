import ModuleGraph.Proofs.Graph.History
import ModuleGraph.Proofs.Json.Layout
import ModuleGraph.Proofs.Serialized.Records
import ModuleGraph.Render

/-!
# A graph read back from its JSON form

A graph is read from the object with its nodes and edges by entering them one after the other into
the empty graph (`ofJson?`). The reader is strict: it gives no graph if a node was known before or
if an edge is refused. What a graph that calls lead to is written as is read without either, since
its nodes are of different files, and each edge leads from one of them to another
(`Reachable.ofJson?_toJson`). The text in between is read as the value it was printed from
(`parse?_pretty`), so the two together are a round trip from text to graph (`ofJson?_render`).
-/

namespace ModuleGraph

namespace Graph

open Json

/-! ## The reader -/

/-- Enters a node of a file that is not known yet. -/
def enterNode? (g : Graph) (node : Node) : Option Graph :=
  if (g.addNode node).2 = g.nodes.size then some (g.addNode node).1 else none

/-- Enters an edge that is not refused. -/
def enterEdge? (g : Graph) (edge : Edge) : Option Graph :=
  (g.addEdge edge).2.map fun _ => (g.addEdge edge).1

/-- An array whose items can all be read. -/
def list? {α : Type} (read : Json → Option α) : Json → Option (List α)
  | .arr items => items.mapM read
  | _ => none

/-- The graph whose nodes and edges the value lists. -/
def ofJson? (v : Json) : Option Graph := do
  let parts ← parts? ["nodes", "edges"] v
  let nodes ← required? parts "nodes" (list? Node.ofJson?)
  let edges ← required? parts "edges" (list? Edge.ofJson?)
  let g ← nodes.foldlM enterNode? empty
  edges.foldlM enterEdge? g

variable {g : Graph}

/-! ## Nothing is refused -/

/-- Nodes of new and different files are all entered. -/
theorem foldlM_enterNode? {nodes : List Node} (h : Consistent g)
    (hdiff : (nodes.map (·.id)).Nodup) (hnew : ∀ node ∈ nodes, ¬ g.Knows node.id) :
    nodes.foldlM enterNode? g = some (nodes.foldl (fun g node => (g.addNode node).1) g) := by
  induction nodes generalizing g with
  | nil => rfl
  | cons node nodes ih =>
      have henter : enterNode? g node = some (g.addNode node).1 :=
        if_pos (h.addNode_new (hnew node List.mem_cons_self)).1
      have hrest := ih (h.addNode node) (List.nodup_cons.1 hdiff).2
        (unknown_addNode hdiff fun other hother => hnew other (List.mem_cons_of_mem _ hother))
      rw [List.foldlM_cons, henter]
      exact hrest

/-- Edges between known and different files are all entered. -/
theorem foldlM_enterEdge? {edges : List Edge} (h : Consistent g)
    (htaken : ∀ edge ∈ edges,
      edge.source ≠ edge.target ∧ g.Knows edge.source ∧ g.Knows edge.target) :
    edges.foldlM enterEdge? g = some (edges.foldl (fun g edge => (g.addEdge edge).1) g) := by
  induction edges generalizing g with
  | nil => rfl
  | cons edge edges ih =>
      obtain ⟨hne, hs, ht⟩ := htaken edge List.mem_cons_self
      obtain ⟨source, hs⟩ := h.exists_index hs
      obtain ⟨target, ht⟩ := h.exists_index ht
      have hstep := addEdge_of_known hne hs ht
      have hrest := ih (h.addEdge edge) (by
        rw [hstep]
        exact fun other hother => htaken other (List.mem_cons_of_mem _ hother))
      have henter : enterEdge? g edge = some (g.addEdge edge).1 := by
        rw [enterEdge?, hstep]
        rfl
      rw [List.foldlM_cons, henter]
      exact hrest

/-- The nodes and then the edges of a consistent graph can be entered again from the start, and
what they make has the same nodes and edges. -/
theorem Consistent.exists_again (h : Consistent g) : ∃ nodesOnly again,
    g.nodes.toList.foldlM enterNode? empty = some nodesOnly ∧
      g.edges.foldlM enterEdge? nodesOnly = some again ∧
      again.nodes = g.nodes ∧ again.edges = g.edges := by
  have hnone : ∀ node ∈ g.nodes.toList, ¬ empty.Knows node.id := by
    rintro _ - ⟨_, hmem, -⟩
    exact absurd hmem (Array.not_mem_empty _)
  obtain ⟨hcons, hnodes, harcs⟩ := nodes_foldl_addNode consistent_empty h.nodup_ids hnone
  have hentered := foldlM_enterNode? consistent_empty h.nodup_ids hnone
  -- for the edges it matters only which nodes there are by then, not how they were entered
  generalize g.nodes.toList.foldl (fun g node => (g.addNode node).1) empty = nodesOnly
    at hcons hnodes harcs hentered
  have hsame : nodesOnly.nodes = g.nodes :=
    Array.toList_inj.1 hnodes
  have htaken : ∀ edge ∈ g.edges, edge.source ≠ edge.target ∧
      nodesOnly.Knows edge.source ∧ nodesOnly.Knows edge.target := by
    intro edge hmem
    rw [Knows, Knows, hsame]
    exact h.ends_of_mem_edges hmem
  obtain ⟨-, hnodes', hedges⟩ := edges_foldl_addEdge hcons htaken
  refine ⟨nodesOnly, _, hentered, foldlM_enterEdge? hcons htaken, hnodes'.trans hsame, ?_⟩
  rw [hedges, edges, harcs]
  rfl

/-! ## Reading what is written -/

theorem Reachable.ofJson?_toJson (h : g.Reachable)
    (hlines : ∀ edge ∈ g.edges, edge.line < UInt64.size) :
    ∃ again, ofJson? g.toJson = some again ∧ again.nodes = g.nodes ∧ again.edges = g.edges := by
  obtain ⟨nodesOnly, again, hnodes, hedges, hsame⟩ := h.consistent.exists_again
  have hparts := @parts?_record ["nodes", "edges"]
    [("nodes", .arr (g.nodes.toList.map Node.toJson)), ("edges", .arr (g.edges.map Edge.toJson))]
    (by simp) (by simp)
  have hreadNodes : list? Node.ofJson? (.arr (g.nodes.toList.map Node.toJson)) =
      some g.nodes.toList :=
    mapM_map_eq_some fun node _ => node.ofJson?_toJson
  have hreadEdges : list? Edge.ofJson? (.arr (g.edges.map Edge.toJson)) = some g.edges :=
    mapM_map_eq_some fun edge hmem => Edge.ofJson?_toJson (hlines edge hmem)
  refine ⟨again, ?_, hsame⟩
  rw [toJson, ofJson?, hparts]
  simp only [required?, List.lookup_cons, String.reduceBEq, Option.bind_eq_bind, Option.bind_some,
    hreadNodes, hreadEdges, hnodes, hedges]

theorem proper_node (node : Node) : Proper node.toJson := by
  have hkind : Proper node.kind.toJson := by
    cases node.kind with
    | file => exact .str
  exact proper_record_cons .str (proper_record_cons .str (proper_record_cons hkind
    proper_record_nil))

theorem proper_edge (edge : Edge) : Proper edge.toJson := by
  have hkind : Proper edge.kind.toJson := by
    cases edge.kind with
    | imports => exact .str
    | exports => exact .str
  have hnames : Proper (.arr (edge.names.map ofString)) := proper_list fun _ _ => .str
  have hline : Proper (.ofNat edge.line) := .num fun _ h => absurd h List.not_mem_nil
  exact proper_record_cons .str (proper_record_cons .str (proper_record_cons hkind
    (proper_record_cons hnames (proper_record_cons hline proper_record_nil))))

/-- The only numbers in a graph's JSON form are lines. -/
theorem proper_toJson (g : Graph) : Proper g.toJson := by
  have hnodes := proper_list fun node (_ : node ∈ g.nodes.toList) => proper_node node
  have hedges := proper_list fun edge (_ : edge ∈ g.edges) => proper_edge edge
  exact proper_record_cons hnodes (proper_record_cons hedges proper_record_nil)

/-- A rendering shows the nodes and the edges, and nothing else of a graph. -/
theorem render_congr {again : Graph} (hnodes : again.nodes = g.nodes)
    (hedges : again.edges = g.edges) (format : Format) : again.render format = g.render format := by
  cases format with
  | json =>
      show again.toJson.pretty = g.toJson.pretty
      rw [toJson, hnodes, hedges, toJson]
  | cytoscape =>
      show again.elements.pretty = g.elements.pretty
      rw [elements, hnodes, hedges, elements]
  | dot =>
      show again.dot = g.dot
      unfold dot
      rw [hnodes, hedges]

/-- The JSON rendering of a graph that calls lead to, whatever texts are in it, is a JSON value;
entering the nodes and edges that the value lists into the empty graph takes every one of them,
and makes a graph with the same nodes and the same edges, in the same order, that is rendered the
same in each format. Of the lines it is asked that sixty-four bits hold them. -/
theorem ofJson?_render (h : g.Reachable) (hlines : ∀ edge ∈ g.edges, edge.line < UInt64.size) :
    ∃ v again, parse? (g.render .json) = some v ∧ ofJson? v = some again ∧
      again.nodes = g.nodes ∧ again.edges = g.edges ∧
      ∀ format, again.render format = g.render format := by
  obtain ⟨again, hread, hnodes, hedges⟩ := h.ofJson?_toJson hlines
  have hparse : parse? (g.render .json) = some g.toJson := by
    rw [render]
    exact parse?_pretty (proper_toJson g)
  exact ⟨g.toJson, again, hparse, hread, hnodes, hedges, render_congr hnodes hedges⟩

/-- Quotes, backslashes, a newline and a null in the texts, and the last line that sixty-four bits
hold. -/
theorem ofJson?_render_quoted :
    let a : Node := { id := ⟨"\"a\\"⟩, label := "\n\"];\u0000" }
    let b : Node := { id := ⟨"b -> \\\""⟩, label := "" }
    let edge : Edge :=
      { source := a.id, target := b.id, kind := .exports, names := ["\\", "\""]
        line := UInt64.size - 1 }
    let g := after [.node a, .node b, .edge edge]
    g.edges = [edge] ∧ ∃ v again, parse? (g.render .json) = some v ∧ ofJson? v = some again ∧
      again.nodes = g.nodes ∧ again.edges = [edge] := by
  intro a b edge g
  have hedges : g.edges = [edge] := by
    simp [g, a, b, edge, after, call, addNode, addEdge, empty, Graph.edges]
  have hlines : ∀ e ∈ g.edges, e.line < UInt64.size := by
    intro e he
    rw [hedges, List.mem_singleton] at he
    rw [he]
    decide
  obtain ⟨v, again, hparse, hread, hnodes, hagain, -⟩ := ofJson?_render ⟨_, rfl⟩ hlines
  exact ⟨hedges, v, again, hparse, hread, hnodes, hagain.trans hedges⟩

end Graph

end ModuleGraph
