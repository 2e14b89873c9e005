import ModuleGraph.Graph

/-!
# What a graph keeps while it grows

A graph holds the same facts several times over: the index repeats where each node stands, and an
arc repeats where the two ends of its edge stand. `Consistent` says that the copies agree. The
empty graph is consistent, and entering a node or an edge keeps it so, whether the node or edge is
taken or refused.

Of the two operations there is one lemma for each outcome, which says what the graph is afterwards
as a whole. Nodes of different files are all taken (`nodes_foldl_addNode`), and so are edges
between known and different files (`edges_foldl_addEdge`), one behind the other.
-/

namespace ModuleGraph

open Std (HashMap)

namespace Graph

/-- There is a node for the file. -/
def Knows (g : Graph) (id : FileId) : Prop :=
  ∃ node ∈ g.nodes, node.id = id

/-- The index and the arcs agree with the nodes. -/
structure Consistent (g : Graph) : Prop where
  /-- The index holds where the node of each file stands. -/
  index_iff : ∀ {id : FileId} {place : Nat},
    g.index[id]? = some place ↔ ∃ node, g.nodes[place]? = some node ∧ node.id = id
  /-- Each arc leads from one file to another, and stands where the index says. -/
  arcs_index : ∀ arc ∈ g.arcs, arc.edge.source ≠ arc.edge.target ∧
    g.index[arc.edge.source]? = some arc.source ∧ g.index[arc.edge.target]? = some arc.target

theorem consistent_empty : Consistent empty := by
  refine ⟨?_, ?_⟩
  · intro id place
    simp [empty]
  · intro arc h
    simp [empty] at h

variable {g : Graph}

theorem length_edges (g : Graph) : g.edges.length = g.arcs.size := by
  rw [edges, List.length_map, Array.length_toList]

/-- A file is in the index exactly if there is a node for it. -/
theorem Consistent.index_eq_none_iff (h : Consistent g) {id : FileId} :
    g.index[id]? = none ↔ ¬ g.Knows id := by
  constructor
  · rintro hnone ⟨node, hmem, hid⟩
    obtain ⟨place, hlt, hplace⟩ := Array.getElem_of_mem hmem
    have := h.index_iff.2 ⟨node, Array.getElem?_eq_some_iff.2 ⟨hlt, hplace⟩, hid⟩
    rw [hnone] at this
    cases this
  · intro hno
    cases hidx : g.index[id]? with
    | none => rfl
    | some place =>
        obtain ⟨node, hnode, hid⟩ := h.index_iff.1 hidx
        exact absurd ⟨node, Array.mem_of_getElem? hnode, hid⟩ hno

theorem Consistent.exists_index (h : Consistent g) {id : FileId} (hk : g.Knows id) :
    ∃ place, g.index[id]? = some place := by
  cases hidx : g.index[id]? with
  | none => exact absurd hk (h.index_eq_none_iff.1 hidx)
  | some place => exact ⟨place, rfl⟩

/-- A place belongs to one file. -/
theorem Consistent.eq_of_index (h : Consistent g) {id id' : FileId} {place : Nat}
    (hid : g.index[id]? = some place) (hid' : g.index[id']? = some place) : id = id' := by
  obtain ⟨node, hnode, rfl⟩ := h.index_iff.1 hid
  obtain ⟨node', hnode', rfl⟩ := h.index_iff.1 hid'
  rw [hnode] at hnode'
  cases hnode'
  rfl

/-! ## Entering a node -/

theorem addNode_of_known {node : Node} {place : Nat} (h : g.index[node.id]? = some place) :
    g.addNode node = (g, place) := by
  simp only [addNode, h]

theorem addNode_of_unknown {node : Node} (h : g.index[node.id]? = none) :
    g.addNode node =
      ({ g with nodes := g.nodes.push node, index := g.index.insert node.id g.nodes.size },
        g.nodes.size) := by
  simp only [addNode, h]

theorem Consistent.addNode (h : Consistent g) (node : Node) : Consistent (g.addNode node).1 := by
  cases hidx : g.index[node.id]? with
  | some place => rwa [addNode_of_known hidx]
  | none =>
      rw [addNode_of_unknown hidx]
      have hkept : ∀ {id : FileId} {place : Nat}, g.index[id]? = some place →
          (g.index.insert node.id g.nodes.size)[id]? = some place := by
        intro id place hid
        have hne : node.id ≠ id := by
          rintro rfl
          rw [hidx] at hid
          cases hid
        simp only [HashMap.getElem?_insert, beq_iff_eq, if_neg hne, hid]
      refine ⟨?_, ?_⟩
      · intro id place
        simp only [HashMap.getElem?_insert, beq_iff_eq, Array.getElem?_push]
        by_cases hid : node.id = id
        · -- the only node of this file is the new one, at the last place
          rw [if_pos hid]
          constructor
          · rintro ⟨⟩
            exact ⟨node, by rw [if_pos rfl], hid⟩
          · rintro ⟨other, hother', ho⟩
            by_cases hp : place = g.nodes.size
            · rw [hp]
            · rw [if_neg hp] at hother'
              have := h.index_iff.2 ⟨other, hother', ho⟩
              rw [← hid, hidx] at this
              cases this
        · rw [if_neg hid, h.index_iff]
          by_cases hp : place = g.nodes.size
          · rw [if_pos hp, hp]
            constructor
            · rintro ⟨other, hother', -⟩
              rw [Array.getElem?_eq_none (Nat.le_refl _)] at hother'
              cases hother'
            · rintro ⟨other, ⟨⟩, ho⟩
              exact absurd ho hid
          · rw [if_neg hp]
      · intro arc harc
        obtain ⟨hne, hs, ht⟩ := h.arcs_index arc harc
        exact ⟨hne, hkept hs, hkept ht⟩

/-- After a node is entered, only its file is known besides the ones before. -/
theorem knows_of_addNode {node : Node} {id : FileId} (h : (g.addNode node).1.Knows id) :
    g.Knows id ∨ id = node.id := by
  cases hidx : g.index[node.id]? with
  | some place =>
      rw [addNode_of_known hidx] at h
      exact Or.inl h
  | none =>
      obtain ⟨known, hmem, hid⟩ := h
      rw [addNode_of_unknown hidx, Array.mem_push] at hmem
      rcases hmem with hmem | rfl
      · exact Or.inl ⟨known, hmem, hid⟩
      · exact Or.inr hid.symm

/-- What is new besides a node that is entered, is new after it. -/
theorem unknown_addNode {node : Node} {nodes : List Node}
    (hdiff : ((node :: nodes).map (·.id)).Nodup) (hnew : ∀ other ∈ nodes, ¬ g.Knows other.id) :
    ∀ other ∈ nodes, ¬ (g.addNode node).1.Knows other.id := by
  intro other hother hknown
  rcases knows_of_addNode hknown with hold | hid
  · exact hnew other hother hold
  · exact (List.nodup_cons.1 hdiff).1 (List.mem_map.2 ⟨other, hother, hid⟩)

/-- Nodes of new and different files are all taken, one behind the other. -/
theorem nodes_foldl_addNode {nodes : List Node} (h : Consistent g)
    (hdiff : (nodes.map (·.id)).Nodup) (hnew : ∀ node ∈ nodes, ¬ g.Knows node.id) :
    let grown := nodes.foldl (fun g node => (g.addNode node).1) g
    Consistent grown ∧ grown.nodes.toList = g.nodes.toList ++ nodes ∧ grown.arcs = g.arcs := by
  induction nodes generalizing g with
  | nil => exact ⟨h, (List.append_nil _).symm, rfl⟩
  | cons node nodes ih =>
      have hidx := h.index_eq_none_iff.2 (hnew node List.mem_cons_self)
      have hstep := addNode_of_unknown hidx
      have hnew' := unknown_addNode hdiff fun other hother =>
        hnew other (List.mem_cons_of_mem _ hother)
      obtain ⟨hcons, hnodes, harcs⟩ := ih (h.addNode node) (List.nodup_cons.1 hdiff).2 hnew'
      refine ⟨hcons, ?_, ?_⟩
      · rw [List.foldl_cons, hnodes, hstep, Array.toList_push, List.append_assoc,
          List.singleton_append]
      · rw [List.foldl_cons, harcs, hstep]

/-! ## Entering an edge -/

theorem addEdge_of_known {edge : Edge} {source target : Nat} (hne : edge.source ≠ edge.target)
    (hs : g.index[edge.source]? = some source) (ht : g.index[edge.target]? = some target) :
    g.addEdge edge = ({ g with arcs := g.arcs.push ⟨source, target, edge⟩ }, some g.arcs.size) := by
  simp only [addEdge, if_neg hne, hs, ht]

theorem addEdge_of_refused {edge : Edge} (h : edge.source = edge.target ∨
    g.index[edge.source]? = none ∨ g.index[edge.target]? = none) : g.addEdge edge = (g, none) := by
  unfold addEdge
  split
  · rfl
  · next hne =>
    split
    · next hs ht =>
      rw [hs, ht] at h
      rcases h with h | h | h
      · exact absurd h hne
      · cases h
      · cases h
    · rfl

/-- Which of the two outcomes an edge has. -/
theorem addEdge_cases (g : Graph) (edge : Edge) :
    (∃ source target, edge.source ≠ edge.target ∧ g.index[edge.source]? = some source ∧
      g.index[edge.target]? = some target ∧
      g.addEdge edge =
        ({ g with arcs := g.arcs.push ⟨source, target, edge⟩ }, some g.arcs.size)) ∨
    ((edge.source = edge.target ∨ g.index[edge.source]? = none ∨ g.index[edge.target]? = none) ∧
      g.addEdge edge = (g, none)) := by
  by_cases hne : edge.source = edge.target
  · exact Or.inr ⟨Or.inl hne, addEdge_of_refused (Or.inl hne)⟩
  cases hs : g.index[edge.source]? with
  | none =>
      exact Or.inr ⟨Or.inr (Or.inl rfl), addEdge_of_refused (Or.inr (Or.inl hs))⟩
  | some source =>
      cases ht : g.index[edge.target]? with
      | none => exact Or.inr ⟨Or.inr (Or.inr rfl), addEdge_of_refused (Or.inr (Or.inr ht))⟩
      | some target => exact Or.inl ⟨source, target, hne, rfl, rfl, addEdge_of_known hne hs ht⟩

theorem Consistent.addEdge (h : Consistent g) (edge : Edge) : Consistent (g.addEdge edge).1 := by
  rcases addEdge_cases g edge with ⟨source, target, hne, hs, ht, heq⟩ | ⟨-, heq⟩
  · rw [heq]
    refine ⟨h.index_iff, ?_⟩
    intro arc harc
    rcases Array.mem_push.1 harc with harc | rfl
    · exact h.arcs_index arc harc
    · exact ⟨hne, hs, ht⟩
  · rwa [heq]

/-- Edges between known and different files are all taken, one behind the other. -/
theorem edges_foldl_addEdge {edges : List Edge} (h : Consistent g)
    (htaken : ∀ edge ∈ edges,
      edge.source ≠ edge.target ∧ g.Knows edge.source ∧ g.Knows edge.target) :
    let grown := edges.foldl (fun g edge => (g.addEdge edge).1) g
    Consistent grown ∧ grown.nodes = g.nodes ∧ grown.edges = g.edges ++ edges := by
  induction edges generalizing g with
  | nil => exact ⟨h, rfl, (List.append_nil _).symm⟩
  | cons edge edges ih =>
      obtain ⟨hne, hs, ht⟩ := htaken edge List.mem_cons_self
      obtain ⟨source, hs⟩ := h.exists_index hs
      obtain ⟨target, ht⟩ := h.exists_index ht
      have hstep := addEdge_of_known hne hs ht
      have htaken' : ∀ other ∈ edges, other.source ≠ other.target ∧
          (g.addEdge edge).1.Knows other.source ∧ (g.addEdge edge).1.Knows other.target := by
        rw [hstep]
        exact fun other hother => htaken other (List.mem_cons_of_mem _ hother)
      obtain ⟨hcons, hnodes, hedges⟩ := ih (h.addEdge edge) htaken'
      refine ⟨hcons, ?_, ?_⟩
      · rw [List.foldl_cons, hnodes, hstep]
      · rw [List.foldl_cons, hedges, hstep]
        simp only [Graph.edges, Array.toList_push, List.map_append, List.map_cons, List.map_nil,
          List.append_assoc, List.singleton_append]

end Graph

end ModuleGraph
