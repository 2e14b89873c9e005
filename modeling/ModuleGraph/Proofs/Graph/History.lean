import ModuleGraph.Proofs.Graph.Invariant

/-!
# Graphs that calls lead to

A graph grows by calls that enter a node or an edge, in any order, each of which may be taken or
refused. `after calls` is what such calls make of the empty graph. All of these graphs are
`Consistent`, since the empty one is and each call keeps it so; what the places of nodes and edges
mean, and what the next call does, follows from that alone.

Nothing is ever taken away or replaced: what the calls so far have entered is a front of what any
further calls lead to (`nodes_prefix_after`, `edges_prefix_after`). In particular the first label
of a file stays, and an edge that came before its ends may come again.
-/

namespace ModuleGraph

namespace Graph

/-- A call that may change a graph. -/
inductive Call where
  | node (node : Node)
  | edge (edge : Edge)

/-- What a call makes of a graph. -/
def call (g : Graph) : Call → Graph
  | .node node => (g.addNode node).1
  | .edge edge => (g.addEdge edge).1

/-- What calls make of the empty graph, the first of them first. -/
def after (calls : List Call) : Graph :=
  calls.foldl call empty

/-- Some calls lead to the graph. -/
def Reachable (g : Graph) : Prop :=
  ∃ calls, g = after calls

theorem after_append (calls more : List Call) :
    after (calls ++ more) = more.foldl call (after calls) :=
  List.foldl_append

variable {g : Graph}

/-! ## What one call keeps -/

theorem Consistent.call (h : Consistent g) (c : Call) : Consistent (g.call c) := by
  cases c with
  | node node => exact h.addNode node
  | edge edge => exact h.addEdge edge

theorem nodes_prefix_call (g : Graph) (c : Call) : g.nodes.toList <+: (g.call c).nodes.toList := by
  cases c with
  | node node =>
      cases hidx : g.index[node.id]? with
      | some place =>
          simp only [call, addNode_of_known hidx, List.prefix_rfl]
      | none =>
          rw [call, addNode_of_unknown hidx, Array.toList_push]
          exact List.prefix_append _ _
  | edge edge =>
      rcases addEdge_cases g edge with ⟨_, _, -, -, -, heq⟩ | ⟨-, heq⟩
      · simp only [call, heq, List.prefix_rfl]
      · simp only [call, heq, List.prefix_rfl]

theorem edges_prefix_call (g : Graph) (c : Call) : g.edges <+: (g.call c).edges := by
  cases c with
  | node node =>
      cases hidx : g.index[node.id]? with
      | some place =>
          simp only [call, addNode_of_known hidx, List.prefix_rfl]
      | none =>
          simp only [call, addNode_of_unknown hidx, edges, List.prefix_rfl]
  | edge edge =>
      rcases addEdge_cases g edge with ⟨_, _, -, -, -, heq⟩ | ⟨-, heq⟩
      · rw [call, heq, Graph.edges, Graph.edges, Array.toList_push, List.map_append]
        exact List.prefix_append _ _
      · simp only [call, heq, List.prefix_rfl]

/-- The edges after a call are the ones before it and the one it brings. -/
theorem mem_edges_call {edge : Edge} {c : Call} (h : edge ∈ (g.call c).edges) :
    edge ∈ g.edges ∨ c = .edge edge := by
  cases c with
  | node node =>
      cases hidx : g.index[node.id]? with
      | some place =>
          rw [call, addNode_of_known hidx] at h
          exact Or.inl h
      | none =>
          rw [call, addNode_of_unknown hidx] at h
          exact Or.inl h
  | edge other =>
      rcases addEdge_cases g other with ⟨_, _, -, -, -, heq⟩ | ⟨-, heq⟩
      · rw [call, heq, Graph.edges, Array.toList_push, List.map_append, List.mem_append] at h
        rcases h with h | h
        · exact Or.inl h
        · exact Or.inr (congrArg Call.edge (List.mem_singleton.1 h).symm)
      · rw [call, heq] at h
        exact Or.inl h

/-! ## What all calls keep -/

theorem Consistent.foldl_call (h : Consistent g) (calls : List Call) :
    Consistent (calls.foldl Graph.call g) := by
  induction calls generalizing g with
  | nil => exact h
  | cons c calls ih => exact ih (h.call c)

theorem consistent_after (calls : List Call) : Consistent (after calls) :=
  consistent_empty.foldl_call calls

theorem Reachable.consistent (h : Reachable g) : Consistent g := by
  obtain ⟨calls, rfl⟩ := h
  exact consistent_after calls

theorem nodes_prefix_foldl (g : Graph) (calls : List Call) :
    g.nodes.toList <+: (calls.foldl call g).nodes.toList := by
  induction calls generalizing g with
  | nil => exact List.prefix_rfl
  | cons c calls ih => exact (nodes_prefix_call g c).trans (ih (g.call c))

theorem edges_prefix_foldl (g : Graph) (calls : List Call) :
    g.edges <+: (calls.foldl call g).edges := by
  induction calls generalizing g with
  | nil => exact List.prefix_rfl
  | cons c calls ih => exact (edges_prefix_call g c).trans (ih (g.call c))

/-- Nodes stay where they are, with the label they came with. -/
theorem nodes_prefix_after (calls more : List Call) :
    (after calls).nodes.toList <+: (after (calls ++ more)).nodes.toList := by
  rw [after_append]
  exact nodes_prefix_foldl _ more

theorem edges_prefix_after (calls more : List Call) :
    (after calls).edges <+: (after (calls ++ more)).edges := by
  rw [after_append]
  exact edges_prefix_foldl _ more

/-- An edge of a graph came with one of the calls. -/
theorem mem_edges_foldl {edge : Edge} {calls : List Call}
    (h : edge ∈ (calls.foldl call g).edges) : edge ∈ g.edges ∨ Call.edge edge ∈ calls := by
  induction calls generalizing g with
  | nil => exact Or.inl h
  | cons c calls ih =>
      rcases ih h with h | h
      · rcases mem_edges_call h with h | h
        · exact Or.inl h
        · exact Or.inr (h ▸ List.mem_cons_self)
      · exact Or.inr (List.mem_cons_of_mem c h)

theorem mem_edges_after {edge : Edge} {calls : List Call} (h : edge ∈ (after calls).edges) :
    Call.edge edge ∈ calls := by
  rcases mem_edges_foldl h with h | h
  · exact absurd h List.not_mem_nil
  · exact h

/-! ## What consistency means for the nodes and the next call -/

/-- No two nodes stand for one file: the index has one place for it. -/
theorem Consistent.nodup_ids (h : Consistent g) : (g.nodes.toList.map (·.id)).Nodup := by
  rw [List.Nodup, List.pairwise_map, List.pairwise_iff_getElem]
  intro i j hi hj hlt heq
  have hplace : ∀ {k : Nat} (hk : k < g.nodes.toList.length),
      g.index[(g.nodes.toList[k]).id]? = some k := by
    intro k hk
    refine h.index_iff.2 ⟨g.nodes.toList[k], ?_, rfl⟩
    rw [← Array.getElem?_toList, List.getElem?_eq_getElem hk]
  have hboth := hplace hi
  rw [heq, hplace hj] at hboth
  exact Nat.ne_of_gt hlt (Option.some.inj hboth)

theorem Consistent.knows_of_index (h : Consistent g) {id : FileId} {place : Nat}
    (hidx : g.index[id]? = some place) : g.Knows id := by
  obtain ⟨node, hnode, hid⟩ := h.index_iff.1 hidx
  exact ⟨node, Array.mem_of_getElem? hnode, hid⟩

/-- An edge of a consistent graph leads from one of its files to another. -/
theorem Consistent.ends_of_mem_edges (h : Consistent g) {edge : Edge} (hmem : edge ∈ g.edges) :
    edge.source ≠ edge.target ∧ g.Knows edge.source ∧ g.Knows edge.target := by
  obtain ⟨arc, harc, rfl⟩ := List.mem_map.1 hmem
  obtain ⟨hne, hs, ht⟩ := h.arcs_index arc (Array.mem_toList_iff.1 harc)
  exact ⟨hne, h.knows_of_index hs, h.knows_of_index ht⟩

/-- An edge is refused exactly if it leads from a file to itself or has an end that is not known. -/
theorem Consistent.addEdge_eq_none_iff (h : Consistent g) {edge : Edge} :
    (g.addEdge edge).2 = none ↔
      edge.source = edge.target ∨ ¬ g.Knows edge.source ∨ ¬ g.Knows edge.target := by
  rw [← h.index_eq_none_iff, ← h.index_eq_none_iff]
  constructor
  · intro hnone
    rcases addEdge_cases g edge with ⟨_, _, -, -, -, heq⟩ | ⟨hrefused, -⟩
    · rw [heq] at hnone
      cases hnone
    · exact hrefused
  · intro hrefused
    rw [addEdge_of_refused hrefused]

theorem addEdge_of_none {edge : Edge} (h : (g.addEdge edge).2 = none) : (g.addEdge edge).1 = g := by
  rcases addEdge_cases g edge with ⟨_, _, -, -, -, heq⟩ | ⟨-, heq⟩
  · rw [heq] at h
    cases h
  · rw [heq]

theorem addEdge_of_some {edge : Edge} {place : Nat} (h : (g.addEdge edge).2 = some place) :
    place = g.edges.length ∧ (g.addEdge edge).1.edges = g.edges ++ [edge] ∧
      (g.addEdge edge).1.nodes = g.nodes ∧ (g.addEdge edge).1.index = g.index := by
  rcases addEdge_cases g edge with ⟨_, _, -, -, -, heq⟩ | ⟨-, heq⟩
  · rw [heq] at h ⊢
    refine ⟨?_, ?_, rfl, rfl⟩
    · rw [length_edges]
      exact (Option.some.inj h).symm
    · rw [Graph.edges, Graph.edges, Array.toList_push, List.map_append]
      rfl
  · rw [heq] at h
    cases h

theorem Consistent.addNode_known (h : Consistent g) {node : Node} (hk : g.Knows node.id) :
    (g.addNode node).1 = g ∧ g.index[node.id]? = some (g.addNode node).2 := by
  obtain ⟨place, hplace⟩ := h.exists_index hk
  rw [addNode_of_known hplace]
  exact ⟨rfl, hplace⟩

theorem Consistent.addNode_new (h : Consistent g) {node : Node} (hk : ¬ g.Knows node.id) :
    (g.addNode node).2 = g.nodes.size ∧ (g.addNode node).1.nodes = g.nodes.push node ∧
      (g.addNode node).1.arcs = g.arcs := by
  rw [addNode_of_unknown (h.index_eq_none_iff.2 hk)]
  exact ⟨rfl, rfl, rfl⟩

/-! ## Every graph that calls lead to -/

/-- Whatever calls a graph comes from: its index holds where the node of each file stands, and no
two nodes are of one file; an edge leads from one known file to another, and is stored with the
places of both. What the calls have entered stays where it is under any further calls. And of the
next call: a node of a known file and a refused edge leave the graph as it is, a new node and an
accepted edge come last and are answered with their place, and an edge is refused exactly if its
ends are one file or one of them is not known by then. -/
theorem after_calls (calls : List Call) :
    let g := after calls
    (∀ (id : FileId) (place : Nat),
      g.index[id]? = some place ↔ ∃ node, g.nodes[place]? = some node ∧ node.id = id) ∧
    (g.nodes.toList.map (·.id)).Nodup ∧
    (∀ arc ∈ g.arcs, arc.edge.source ≠ arc.edge.target ∧
      g.Knows arc.edge.source ∧ g.Knows arc.edge.target ∧
      g.index[arc.edge.source]? = some arc.source ∧ g.index[arc.edge.target]? = some arc.target) ∧
    (∀ more, g.nodes.toList <+: (after (calls ++ more)).nodes.toList ∧
      g.edges <+: (after (calls ++ more)).edges) ∧
    (∀ node : Node, g.Knows node.id →
      (g.addNode node).1 = g ∧ g.index[node.id]? = some (g.addNode node).2) ∧
    (∀ node : Node, ¬ g.Knows node.id →
      (g.addNode node).2 = g.nodes.size ∧ (g.addNode node).1.nodes = g.nodes.push node ∧
        (g.addNode node).1.arcs = g.arcs) ∧
    (∀ edge, (g.addEdge edge).2 = none ↔
      edge.source = edge.target ∨ ¬ g.Knows edge.source ∨ ¬ g.Knows edge.target) ∧
    (∀ edge, (g.addEdge edge).2 = none → (g.addEdge edge).1 = g) ∧
    ∀ edge place, (g.addEdge edge).2 = some place →
      place = g.edges.length ∧ (g.addEdge edge).1.edges = g.edges ++ [edge] ∧
        (g.addEdge edge).1.nodes = g.nodes ∧ (g.addEdge edge).1.index = g.index := by
  intro g
  have h : Consistent g := consistent_after calls
  refine ⟨fun _ _ => h.index_iff, h.nodup_ids, ?_, ?_, fun _ => h.addNode_known,
    fun _ => h.addNode_new, fun _ => h.addEdge_eq_none_iff, fun _ => addEdge_of_none,
    fun _ _ => addEdge_of_some⟩
  · intro arc harc
    obtain ⟨hne, hs, ht⟩ := h.arcs_index arc harc
    exact ⟨hne, h.knows_of_index hs, h.knows_of_index ht, hs, ht⟩
  · intro more
    exact ⟨nodes_prefix_after calls more, edges_prefix_after calls more⟩

/-- Where only `a.ts` is known, another node of it is not taken and an edge to `b.ts` is refused;
once there is a node of `b.ts`, the same edge is taken and is the first. -/
theorem after_calls_of_two :
    let a : Node := { id := ⟨"a.ts"⟩, label := "a" }
    let b : Node := { id := ⟨"b.ts"⟩, label := "b" }
    let edge : Edge := { source := a.id, target := b.id, names := [], line := 1 }
    (after [.node a]).nodes = #[a] ∧
    ((after [.node a]).addNode { a with label := "other" }).1 = after [.node a] ∧
    ((after [.node a]).addEdge edge).1 = after [.node a] ∧
    ((after [.node a]).addNode b).2 = 1 ∧
    ((after [.node a, .node b]).addEdge edge).2 = some 0 ∧
    ((after [.node a, .node b]).addEdge edge).1.edges = [edge] := by
  intro a b edge
  have hab : a.id ≠ b.id := by decide
  have hone : (after [.node a]).nodes = #[a] := by
    simp [after, call, addNode, empty]
  have htwo : after [.node a, .node b] = ((after [.node a]).addNode b).1 := rfl
  have hknown : (after [.node a]).Knows a.id := ⟨a, by rw [hone]; simp, rfl⟩
  have hunknown : ¬ (after [.node a]).Knows b.id := by
    rintro ⟨node, hmem, hid⟩
    rw [hone, List.mem_toArray, List.mem_singleton] at hmem
    exact hab (hmem ▸ hid)
  obtain ⟨-, -, -, -, hsecond, hnew, hiff, hsame, -⟩ := after_calls [.node a]
  obtain ⟨hplace, hnodes, harcs⟩ := hnew b hunknown
  obtain ⟨-, -, -, -, -, -, hiff', -, hsome⟩ := after_calls [.node a, .node b]
  have hedges : (after [.node a, .node b]).edges = [] := by
    rw [htwo, Graph.edges, harcs]
    simp [after, call, addNode, empty]
  have htaken : ((after [.node a, .node b]).addEdge edge).2 ≠ none := by
    rw [Ne, hiff', htwo]
    rintro (heq | hs | ht)
    · exact hab heq
    · exact hs ⟨a, by rw [hnodes, hone]; simp, rfl⟩
    · exact ht ⟨b, by rw [hnodes]; simp, rfl⟩
  obtain ⟨place, hanswer⟩ := Option.ne_none_iff_exists'.1 htaken
  obtain ⟨hfirst, hentered, -, -⟩ := hsome edge place hanswer
  refine ⟨hone, (hsecond { a with label := "other" } hknown).1,
    hsame edge ((hiff edge).2 (Or.inr (Or.inr hunknown))),
    ?_, ?_, ?_⟩
  · rw [hplace, hone]
    rfl
  · rw [hanswer, hfirst, hedges]
    rfl
  · rw [hentered, hedges]
    rfl

end Graph

end ModuleGraph
