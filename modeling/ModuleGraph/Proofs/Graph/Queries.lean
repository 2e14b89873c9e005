import Mathlib.Data.List.Sort
import ModuleGraph.Proofs.Graph.History

/-!
# The edges that leave a file and those that arrive at it

A graph finds the edges at a file by the place of the file, and compares no identifiers. In a
consistent graph a place belongs to one file, so what is found are the edges with the file as their
source, or as their target, in the order in which they were entered
(`Consistent.edgesAt_eq_filter`). An edge has one source and one target, and there is a node for
each: over all nodes, every edge is found once on either side.

The edges at a file need not be gathered in the order in which they were entered. Whoever gathers
them in another one, each with its place among all edges, and then sorts them by these places, has
the same list (`byPlace_eq_filter`).
-/

namespace ModuleGraph

namespace Graph

variable {g : Graph}

/-! ## Lists in groups and in order -/

/-- The groups of a list by a key hold what the list holds, if there is one group for each key. -/
theorem flatMap_filter_perm {α κ : Type} [DecidableEq κ] {key : α → κ} {keys : List κ}
    {l : List α} (hdiff : keys.Nodup) (hkeys : ∀ a ∈ l, key a ∈ keys) :
    (keys.flatMap fun k => l.filter (key · = k)).Perm l := by
  induction keys generalizing l with
  | nil =>
      have hnil : l = [] := List.eq_nil_iff_forall_not_mem.2 fun a ha =>
        absurd (hkeys a ha) List.not_mem_nil
      rw [hnil]
      exact .refl []
  | cons first keys ih =>
      obtain ⟨hfirst, hdiff⟩ := List.nodup_cons.1 hdiff
      let others := l.filter fun a => !decide (key a = first)
      have hgroups : ∀ k ∈ keys, l.filter (key · = k) = others.filter (key · = k) := by
        intro k hk
        have hne : k ≠ first := ne_of_mem_of_not_mem hk hfirst
        rw [List.filter_filter]
        refine List.filter_congr fun a _ => ?_
        by_cases ha : key a = k
        · simp [ha, hne]
        · simp [ha]
      have hothers : ∀ a ∈ others, key a ∈ keys := by
        intro a ha
        obtain ⟨hmem, hne⟩ := List.mem_filter.1 ha
        exact (List.mem_cons.1 (hkeys a hmem)).resolve_left (by simpa using hne)
      rw [List.flatMap_cons, List.flatMap_congr hgroups]
      exact ((ih hdiff hothers).append_left _).trans (List.filter_append_perm _ l)

/-- Entries that were gathered with their places, in the order of these places. -/
def byPlace {α : Type} (gathered : List (α × Nat)) : List α :=
  (gathered.mergeSort (·.2 ≤ ·.2)).map Prod.fst

/-- The entries of a list with a property come in the order of the list by their places, in
whatever order they were gathered. -/
theorem byPlace_eq_filter {α : Type} {l : List α} {p : α → Bool} {gathered : List (α × Nat)}
    (h : gathered.Perm (l.zipIdx.filter (p ∘ Prod.fst))) : byPlace gathered = l.filter p := by
  have hplaces : (l.zipIdx.map (·.2)).Pairwise (· < ·) := by
    rw [List.zipIdx_map_snd]
    exact List.pairwise_lt_range'
  have hlisted : (l.zipIdx.filter (p ∘ Prod.fst)).Pairwise (decide <| ·.2 ≤ ·.2) :=
    ((List.pairwise_map.1 hplaces).filter _).imp fun hlt => decide_eq_true (Nat.le_of_lt hlt)
  have hsorted : (gathered.mergeSort (·.2 ≤ ·.2)).Pairwise (decide <| ·.2 ≤ ·.2) := by
    refine List.pairwise_mergeSort ?_ ?_ gathered
    · intro a b c hab hbc
      exact decide_eq_true ((of_decide_eq_true hab).trans (of_decide_eq_true hbc))
    · intro a b
      simpa using Nat.le_total a.2 b.2
  have hperm : (gathered.mergeSort (·.2 ≤ ·.2)).Perm (l.zipIdx.filter (p ∘ Prod.fst)) :=
    (List.mergeSort_perm gathered _).trans h
  -- an entry is known by its place
  have hone : ∀ a b : α × Nat, a ∈ gathered.mergeSort (·.2 ≤ ·.2) →
      b ∈ l.zipIdx.filter (p ∘ Prod.fst) → decide (a.2 ≤ b.2) = true → decide (b.2 ≤ a.2) = true →
      a = b := by
    intro a b ha hb hab hba
    have hplace : a.2 = b.2 := Nat.le_antisymm (of_decide_eq_true hab) (of_decide_eq_true hba)
    have ha := List.mem_zipIdx_iff_getElem?.1 (List.mem_of_mem_filter (hperm.subset ha))
    have hb := List.mem_zipIdx_iff_getElem?.1 (List.mem_of_mem_filter hb)
    rw [hplace, hb] at ha
    exact Prod.ext (Option.some.inj ha).symm hplace
  rw [byPlace, hperm.eq_of_pairwise hone hsorted hlisted, ← List.filter_map, List.zipIdx_map_fst]

/-! ## The edges at a file -/

/-- If `side` is where the end `endOf` of an edge stands, the edges that are found by the place are
those with that end. -/
theorem Consistent.edgesAt_eq_filter (h : Consistent g) {side : Arc → Nat} {endOf : Edge → FileId}
    (hside : ∀ arc ∈ g.arcs, g.index[endOf arc.edge]? = some (side arc)) (id : FileId) :
    g.edgesAt side id = g.edges.filter (endOf · = id) := by
  rw [edges, List.filter_map, edgesAt]
  cases hidx : g.index[id]? with
  | none =>
      have hno : ∀ arc ∈ g.arcs.toList, ¬ (decide (endOf arc.edge = id)) = true := by
        intro arc harc heq
        have hplace := hside arc (Array.mem_toList_iff.1 harc)
        rw [of_decide_eq_true heq, hidx] at hplace
        cases hplace
      exact (congrArg (List.map Arc.edge) (List.filter_eq_nil_iff.2 hno)).symm
  | some place =>
      refine congrArg (List.map Arc.edge) (List.filter_congr fun arc harc => ?_)
      have hplace := hside arc (Array.mem_toList_iff.1 harc)
      refine Bool.eq_iff_iff.2 (beq_iff_eq.trans (Iff.trans ?_ decide_eq_true_iff.symm))
      constructor
      · rintro rfl
        exact h.eq_of_index hplace hidx
      · intro hend
        rw [hend, hidx] at hplace
        exact (Option.some.inj hplace).symm

theorem Consistent.importsOf_eq_filter (h : Consistent g) (id : FileId) :
    g.importsOf id = g.edges.filter (·.source = id) :=
  h.edgesAt_eq_filter (fun arc harc => (h.arcs_index arc harc).2.1) id

theorem Consistent.importedBy_eq_filter (h : Consistent g) (id : FileId) :
    g.importedBy id = g.edges.filter (·.target = id) :=
  h.edgesAt_eq_filter (fun arc harc => (h.arcs_index arc harc).2.2) id

/-- No edge is at a file that is not known. -/
theorem Consistent.edgesAt_eq_nil (h : Consistent g) {id : FileId} (hid : ¬ g.Knows id)
    (side : Arc → Nat) : g.edgesAt side id = [] := by
  rw [edgesAt, h.index_eq_none_iff.2 hid]

/-- One end of each edge taken, the nodes share out the edges among them. -/
theorem Consistent.flatMap_filter_perm_edges (h : Consistent g) {endOf : Edge → FileId}
    (hend : ∀ edge ∈ g.edges, g.Knows (endOf edge)) :
    (g.nodes.toList.flatMap fun node => g.edges.filter (endOf · = node.id)).Perm g.edges := by
  have hkeys : ∀ edge ∈ g.edges, endOf edge ∈ g.nodes.toList.map (·.id) := by
    intro edge hedge
    obtain ⟨node, hnode, hid⟩ := hend edge hedge
    exact List.mem_map.2 ⟨node, Array.mem_toList_iff.2 hnode, hid⟩
  have hperm := flatMap_filter_perm h.nodup_ids hkeys
  rwa [List.flatMap_map] at hperm

/-- Whatever calls a graph comes from: the edges that leave a file are the edges with that source,
and those that arrive at it the edges with that target, each as often as it was entered and in that
order. A file that is not known has none. The edges at all nodes together are all edges, each as
often as it is there, on the one side as on the other. And the edges at a file are the same if they
are gathered in any order and then sorted by their places among all edges. -/
theorem after_queries (calls : List Call) :
    let g := after calls
    (∀ id, g.importsOf id = g.edges.filter (·.source = id)) ∧
    (∀ id, g.importedBy id = g.edges.filter (·.target = id)) ∧
    (∀ id, ¬ g.Knows id → g.importsOf id = [] ∧ g.importedBy id = []) ∧
    (g.nodes.toList.flatMap fun node => g.importsOf node.id).Perm g.edges ∧
    (g.nodes.toList.flatMap fun node => g.importedBy node.id).Perm g.edges ∧
    ∀ (id : FileId) (gathered : List (Edge × Nat)),
      (gathered.Perm (g.edges.zipIdx.filter (·.1.source = id)) →
        byPlace gathered = g.importsOf id) ∧
      (gathered.Perm (g.edges.zipIdx.filter (·.1.target = id)) →
        byPlace gathered = g.importedBy id) := by
  intro g
  have h : Consistent g := consistent_after calls
  refine ⟨h.importsOf_eq_filter, h.importedBy_eq_filter, ?_, ?_, ?_, ?_⟩
  · intro id hid
    exact ⟨h.edgesAt_eq_nil hid _, h.edgesAt_eq_nil hid _⟩
  · simp only [h.importsOf_eq_filter]
    exact h.flatMap_filter_perm_edges fun edge hedge => (h.ends_of_mem_edges hedge).2.1
  · simp only [h.importedBy_eq_filter]
    exact h.flatMap_filter_perm_edges fun edge hedge => (h.ends_of_mem_edges hedge).2.2
  · intro id gathered
    rw [h.importsOf_eq_filter, h.importedBy_eq_filter]
    exact ⟨fun hall => byPlace_eq_filter hall, fun hall => byPlace_eq_filter hall⟩

/-- Two edges of `a.ts` are alike, and they are gathered with the newest first. -/
theorem after_queries_of_repeated :
    let a : Node := { id := ⟨"a.ts"⟩, label := "a" }
    let b : Node := { id := ⟨"b.ts"⟩, label := "b" }
    let c : Node := { id := ⟨"c.ts"⟩, label := "c" }
    let ab : Edge := { source := a.id, target := b.id, names := [], line := 1 }
    let ac : Edge := { source := a.id, target := c.id, names := [], line := 2 }
    let cb : Edge := { source := c.id, target := b.id, names := [], line := 1 }
    let g := after [.node a, .node b, .node c, .edge ab, .edge ac, .edge cb, .edge ab]
    g.importsOf a.id = [ab, ac, ab] ∧ g.importedBy b.id = [ab, cb, ab] ∧
    ¬ g.Knows ⟨"d.ts"⟩ ∧ g.importsOf ⟨"d.ts"⟩ = [] ∧
    byPlace [(ab, 3), (ac, 1), (ab, 0)] = g.importsOf a.id := by
  intro a b c ab ac cb g
  have hedges : g.edges = [ab, ac, cb, ab] := by
    simp [g, after, call, addNode, addEdge, empty, edges, a, b, c, ab, ac, cb]
  have hnodes : g.nodes = #[a, b, c] := by
    simp [g, after, call, addNode, addEdge, empty, a, b, c, ab, ac, cb]
  have hunknown : ¬ g.Knows ⟨"d.ts"⟩ := by
    rintro ⟨node, hnode, hid⟩
    rw [hnodes] at hnode
    simp only [List.mem_toArray, List.mem_cons, List.not_mem_nil, or_false] at hnode
    rcases hnode with rfl | rfl | rfl <;> exact absurd hid (by decide)
  obtain ⟨hsource, htarget, hnone, -, -, hgathered⟩ :=
    after_queries [.node a, .node b, .node c, .edge ab, .edge ac, .edge cb, .edge ab]
  refine ⟨(hsource a.id).trans ?_, (htarget b.id).trans ?_, hunknown, (hnone _ hunknown).1,
    (hgathered a.id _).1 ?_⟩
  · rw [hedges]
    decide
  · rw [hedges]
    decide
  · rw [hedges]
    decide

end Graph

end ModuleGraph
