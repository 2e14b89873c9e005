import ModuleGraph.Proofs.Serialized.KeyOrder

/-!
# The element lists of a view

A view is given the records of a graph as elements, each an object that holds the record as its only
member. With every element replaced by the record in it (`unwrap?`), the element lists are the JSON
form of the graph up to the order of keys (`unwrap?_elements`). Both are printed and read as the
values they are, so this carries over to the two renderings (`unwrap?_render`); and since a graph is
read in any order of the keys, the two tell the same nodes and edges.
-/

namespace ModuleGraph

namespace Json

/-! ## Records for elements -/

/-- The record in an element. -/
def unwrapElement? : Json → Option Json
  | .obj [(some "data", v)] => some v
  | _ => none

/-- A list with the record in each of its elements. -/
def unwrapList? : Json → Option Json
  | .arr items => (items.mapM unwrapElement?).map .arr
  | _ => none

/-- A member; of the nodes and the edges, with the records in place of the elements. -/
def unwrapMember? : Option String × Json → Option (Option String × Json)
  | (some "nodes", v) => (unwrapList? v).map (some "nodes", ·)
  | (some "edges", v) => (unwrapList? v).map (some "edges", ·)
  | m => some m

/-- An object with the records of its nodes and edges in place of their elements. -/
def unwrap? : Json → Option Json
  | .obj members => (members.mapM unwrapMember?).map .obj
  | _ => none

theorem unwrapList?_map {α : Type} {wrap write : α → Json} (items : List α)
    (h : ∀ a, unwrapElement? (wrap a) = some (write a)) :
    unwrapList? (.arr (items.map wrap)) = some (.arr (items.map write)) := by
  have hread : unwrapElement? ∘ wrap = fun a => pure (write a) := funext h
  rw [unwrapList?, List.mapM_map, hread, List.mapM_pure]
  rfl

/-! ## Keys in their order -/

theorem sorted_record_single (key : String) (v : Json) :
    (record [(key, v)]).sorted = record [(key, v.sorted)] := by
  rw [record, sorted]
  exact congrArg Json.obj (List.mergeSort_singleton _)

/-- Of a graph's two members, the edges come first in the order of the alphabet. -/
theorem sorted_record_lists (nodes edges : Json) :
    (record [("nodes", nodes), ("edges", edges)]).sorted =
      record [("edges", edges.sorted), ("nodes", nodes.sorted)] := by
  have hkeys : ¬ "nodes" ≤ "edges" := by decide
  simp [record, sorted, sortedMembers, List.mergeSort, List.MergeSort.Internal.splitInTwo, hkeys]

theorem sorted_list {α : Type} (write : α → Json) (items : List α) :
    (Json.arr (items.map write)).sorted = .arr (items.map fun a => (write a).sorted) := by
  rw [sorted, sortedItems_eq_map, List.map_map]
  rfl

end Json

namespace Graph

open Json

theorem unwrapElement?_sorted_element (v : Json) :
    unwrapElement? (element v).sorted = some v.sorted := by
  rw [element, sorted_record_single]
  rfl

/-- The element lists hold the JSON form of the graph, with the keys in their order. -/
theorem unwrap?_elements (g : Graph) : unwrap? g.elements = some g.toJson.sorted := by
  have hnodes := unwrapList?_map g.nodes.toList fun node : Node =>
    unwrapElement?_sorted_element node.toJson
  have hedges := unwrapList?_map g.edges fun edge : Edge =>
    unwrapElement?_sorted_element edge.toJson
  rw [elements, toJson, sorted_record_lists, sorted_record_lists, sorted_list, sorted_list,
    sorted_list, sorted_list]
  simp only [record, List.map_cons, List.map_nil, unwrap?, List.mapM_cons, List.mapM_nil,
    unwrapMember?, hnodes, hedges]
  rfl

theorem proper_elements (g : Graph) : Proper g.elements := by
  have hnodes := proper_list fun node (_ : node ∈ g.nodes.toList) =>
    @proper_record_cons "data" _ _ (proper_node node) proper_record_nil
  have hedges := proper_list fun edge (_ : edge ∈ g.edges) =>
    @proper_record_cons "data" _ _ (proper_edge edge) proper_record_nil
  exact (proper_record_cons hnodes (proper_record_cons hedges proper_record_nil)).sorted

/-! ## The two renderings -/

/-- The two JSON renderings of a graph that calls lead to tell the same. Each is a JSON value; the
records of the element lists make a value that is that of the JSON form but for the order of keys;
and both values are read as one graph, with the nodes and the edges in their order and every text as
it was. The same holds of the lines if sixty-four bits hold them. -/
theorem unwrap?_render {g : Graph} (h : g.Reachable) : ∃ v w x,
    parse? (g.render .json) = some v ∧ parse? (g.render .cytoscape) = some w ∧
      unwrap? w = some x ∧ x.Same v ∧
      ((∀ edge ∈ g.edges, edge.line < UInt64.size) → ∃ again,
        ofJson? v = some again ∧ ofJson? x = some again ∧
          again.nodes = g.nodes ∧ again.edges = g.edges) := by
  have hjson : parse? (g.render .json) = some g.toJson := by
    rw [render]
    exact parse?_pretty (proper_toJson g)
  have hview : parse? (g.render .cytoscape) = some g.elements := by
    rw [render]
    exact parse?_pretty (proper_elements g)
  have hsame : g.toJson.sorted.Same g.toJson := sorted_same g.toJson
  refine ⟨_, _, _, hjson, hview, unwrap?_elements g, hsame, fun hlines => ?_⟩
  obtain ⟨again, hread, hnodes, hedges⟩ := h.ofJson?_toJson hlines
  exact ⟨again, hread, (ofJson?_eq_of_same hsame).trans hread, hnodes, hedges⟩

/-- Names with quotes, a backslash and a newline, and the last line that sixty-four bits hold. -/
theorem unwrap?_render_quoted :
    let a : Node := { id := ⟨"\"a\\"⟩, label := "\n" }
    let b : Node := { id := ⟨"b"⟩, label := "" }
    let edge : Edge :=
      { source := a.id, target := b.id, kind := .imports, names := ["\""]
        line := UInt64.size - 1 }
    let g := after [.node a, .node b, .edge edge]
    g.edges = [edge] ∧ ∃ v w x again, parse? (g.render .json) = some v ∧
      parse? (g.render .cytoscape) = some w ∧ unwrap? w = some x ∧ x.Same v ∧
      ofJson? x = some again ∧ again.nodes = g.nodes ∧ again.edges = [edge] := by
  intro a b edge g
  have hedges : g.edges = [edge] := by
    simp [g, a, b, edge, after, call, addNode, addEdge, empty, Graph.edges]
  obtain ⟨v, w, x, hv, hw, hx, hsame, hread⟩ := unwrap?_render (g := g) ⟨_, rfl⟩
  have hlines : ∀ e ∈ g.edges, e.line < UInt64.size := by
    intro e he
    rw [hedges, List.mem_singleton] at he
    rw [he]
    exact Nat.sub_lt (by decide) Nat.one_pos
  obtain ⟨again, -, hagain, hnodes, hsameEdges⟩ := hread hlines
  exact ⟨hedges, v, w, x, again, hv, hw, hx, hsame, hagain, hnodes, hsameEdges.trans hedges⟩

end Graph

end ModuleGraph
