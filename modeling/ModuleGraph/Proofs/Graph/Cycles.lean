import Mathlib.Data.List.Range
import Mathlib.Data.Set.Finite.List
import Mathlib.Order.Preorder.Finite
import ModuleGraph.Proofs.Graph.History

/-!
# Cycles of imports

A cycle is a walk along edges that comes back to the file it set out from (`IsCycle`). The test for
cycles does not walk. It takes away the arcs that lead nowhere, again and again, and what it keeps
is the largest part of the arcs in which each one can be followed by one of the part:
`Endless (cyclicPart arcs)`, and every endless part is in it (`Endless.subset_cyclicPart`).

The edges of a cycle are an endless part, so they are kept, and what was reached by several ways is
taken away like anything else if it leads nowhere. In an endless part one can walk on for ever; but
there are finitely many arcs, so the walk comes to one for the second time, and what lies between is
a cycle (`Endless.exists_cycle`).

The test follows places and a cycle follows identifiers. In a consistent graph an arc leads to the
place where the next one starts exactly if its edge leads to the file that the next one leaves.
-/

namespace ModuleGraph

namespace Graph

variable {g : Graph} {arcs part : List Arc}

/-! ## What is kept -/

/-- Each of the arcs can be followed by one of them. -/
def Endless (arcs : List Arc) : Prop :=
  ∀ arc ∈ arcs, ∃ next ∈ arcs, arc.target = next.source

theorem mem_continued_iff {arc : Arc} :
    arc ∈ continued arcs ↔ arc ∈ arcs ∧ ∃ next ∈ arcs, arc.target = next.source := by
  rw [continued, List.mem_filter, Std.HashSet.contains_ofList, List.contains_iff_mem, List.mem_map]
  simp only [eq_comm]

theorem cyclicPart_subset (arcs : List Arc) : cyclicPart arcs ⊆ arcs := by
  fun_induction cyclicPart arcs with
  | case1 arcs kept _ =>
      rename_i ih
      exact fun arc harc => (mem_continued_iff.1 (ih harc)).1
  | case2 arcs => exact List.Subset.refl arcs

/-- Where nothing more is taken away, every arc leads on. -/
theorem endless_cyclicPart (arcs : List Arc) : Endless (cyclicPart arcs) := by
  fun_induction cyclicPart arcs with
  | case1 arcs kept _ ih => exact ih
  | case2 arcs kept hlength =>
      have hle : kept.length ≤ arcs.length := List.length_filter_le _ arcs
      have hkept : kept = arcs :=
        List.filter_sublist.eq_of_length (Nat.le_antisymm hle (Nat.le_of_not_lt hlength))
      intro arc harc
      rw [← hkept] at harc
      exact (mem_continued_iff.1 harc).2

/-- An endless part is never touched, whatever else is taken away. -/
theorem Endless.subset_cyclicPart (h : Endless part) (hsub : part ⊆ arcs) :
    part ⊆ cyclicPart arcs := by
  fun_induction cyclicPart arcs with
  | case1 arcs kept _ ih =>
      refine ih fun arc harc => mem_continued_iff.2 ⟨hsub harc, ?_⟩
      obtain ⟨next, hnext, hmeet⟩ := h arc harc
      exact ⟨next, hsub hnext, hmeet⟩
  | case2 arcs => exact hsub

/-! ## Cycles -/

/-- Edges of the graph, one behind the other: each leads to the file that the next one leaves, and
the last one to the file that the first one leaves. -/
structure IsCycle (g : Graph) (cycle : List Edge) : Prop where
  ne_nil : cycle ≠ []
  edges : ∀ edge ∈ cycle, edge ∈ g.edges
  linked : cycle.IsChain fun edge next => edge.target = next.source
  closed : (cycle.getLast ne_nil).target = (cycle.head ne_nil).source

variable {cycle : List Edge}

/-- There is no last edge in a cycle. -/
theorem IsCycle.exists_next (h : g.IsCycle cycle) {edge : Edge} (hedge : edge ∈ cycle) :
    ∃ next ∈ cycle, edge.target = next.source := by
  obtain ⟨before, after, hcycle⟩ := List.append_of_mem hedge
  cases after with
  | nil =>
      have hlast : cycle.getLast h.ne_nil = edge := by simp [hcycle]
      exact ⟨cycle.head h.ne_nil, List.head_mem h.ne_nil, hlast ▸ h.closed⟩
  | cons next after =>
      have hlinked := h.linked
      rw [hcycle] at hlinked
      have hmeet := (List.isChain_cons_cons.1 hlinked.right_of_append).1
      exact ⟨next, by simp [hcycle], hmeet⟩

/-- A walk that stays in a list comes back to one of its places. -/
theorem exists_iterate_eq {α : Type} {next : α → α} {l : List α} {start : α} (hstart : start ∈ l)
    (hnext : ∀ a ∈ l, next a ∈ l) : ∃ n a, (∀ i, next^[i] a ∈ l) ∧ next^[n + 1] a = a := by
  have hwalk : ∀ a ∈ l, ∀ i, next^[i] a ∈ l := by
    intro a ha i
    induction i with
    | zero => exact ha
    | succ i ih =>
        rw [Function.iterate_succ_apply']
        exact hnext _ ih
  obtain ⟨i, j, hlt, heq⟩ :=
    Set.Finite.exists_lt_map_eq_of_forall_mem (hwalk start hstart) (List.finite_toSet l)
  refine ⟨j - i - 1, next^[i] start, hwalk _ (hwalk start hstart i), ?_⟩
  rw [← Function.iterate_add_apply, heq]
  congr 1
  omega

/-- The edges of two arcs meet at a file exactly if the arcs meet at its place. -/
theorem Consistent.target_eq_source_iff (h : Consistent g) {arc next : Arc} (harc : arc ∈ g.arcs)
    (hnext : next ∈ g.arcs) :
    arc.target = next.source ↔ arc.edge.target = next.edge.source := by
  obtain ⟨-, -, htarget⟩ := h.arcs_index arc harc
  obtain ⟨-, hsource, -⟩ := h.arcs_index next hnext
  constructor
  · intro hmeet
    rw [hmeet] at htarget
    exact h.eq_of_index htarget hsource
  · intro hmeet
    rw [hmeet, hsource] at htarget
    exact (Option.some.inj htarget).symm

/-- In an endless part there is a cycle. -/
theorem Endless.exists_cycle (hendless : Endless part) (hne : part ≠ []) (h : Consistent g)
    (hpart : ∀ arc ∈ part, arc ∈ g.arcs) : ∃ cycle, g.IsCycle cycle := by
  obtain ⟨start, hstart⟩ := List.exists_mem_of_ne_nil part hne
  have : Nonempty Arc := ⟨start⟩
  choose! next hnext hmeet using hendless
  obtain ⟨n, first, hmem, hback⟩ := exists_iterate_eq hstart hnext
  have hstep : ∀ i, (next^[i] first).edge.target = (next^[i + 1] first).edge.source := by
    intro i
    rw [← h.target_eq_source_iff (hpart _ (hmem i)) (hpart _ (hmem (i + 1))),
      Function.iterate_succ_apply']
    exact hmeet _ (hmem i)
  refine ⟨(List.range (n + 1)).map fun i => (next^[i] first).edge, ?_, ?_, ?_, ?_⟩
  · simp
  · rintro edge hedge
    obtain ⟨i, -, rfl⟩ := List.mem_map.1 hedge
    exact List.mem_map_of_mem (Array.mem_toList_iff.2 (hpart _ (hmem i)))
  · exact (List.isChain_map _).2 ((List.isChain_range _ _).2 fun i _ => hstep i)
  · have hclosed := hstep n
    rw [hback] at hclosed
    simpa using hclosed

/-- The arcs of a cycle are kept. -/
theorem IsCycle.cyclicPart_ne_nil (hcycle : g.IsCycle cycle) (h : Consistent g) :
    cyclicPart g.arcs.toList ≠ [] := by
  let part := g.arcs.toList.filter (·.edge ∈ cycle)
  have hfind : ∀ edge ∈ cycle, ∃ arc ∈ part, arc.edge = edge := by
    intro edge hedge
    obtain ⟨arc, harc, rfl⟩ := List.mem_map.1 (hcycle.edges edge hedge)
    exact ⟨arc, List.mem_filter.2 ⟨harc, decide_eq_true hedge⟩, rfl⟩
  have hsub : part ⊆ g.arcs.toList := List.filter_subset_self _
  have hendless : Endless part := by
    intro arc harc
    obtain ⟨edge, hedge, hmeet⟩ := hcycle.exists_next (of_decide_eq_true (List.mem_filter.1 harc).2)
    obtain ⟨next, hnext, rfl⟩ := hfind edge hedge
    exact ⟨next, hnext, (h.target_eq_source_iff (Array.mem_toList_iff.1 (hsub harc))
      (Array.mem_toList_iff.1 (hsub hnext))).2 hmeet⟩
  obtain ⟨arc, harc, -⟩ := hfind _ (List.head_mem hcycle.ne_nil)
  exact List.ne_nil_of_mem (hendless.subset_cyclicPart hsub harc)

theorem Consistent.isCyclic_iff (h : Consistent g) :
    g.isCyclic = true ↔ ∃ cycle, g.IsCycle cycle := by
  have hkept : g.isCyclic = true ↔ cyclicPart g.arcs.toList ≠ [] := by
    simp [isCyclic]
  rw [hkept]
  constructor
  · intro hne
    exact (endless_cyclicPart _).exists_cycle hne h fun arc harc =>
      Array.mem_toList_iff.1 (cyclicPart_subset _ harc)
  · rintro ⟨cycle, hcycle⟩
    exact hcycle.cyclicPart_ne_nil h

/-- No edge leads back to the file it leaves, so one edge is no cycle. -/
theorem IsCycle.two_le_length (hcycle : g.IsCycle cycle) (h : Consistent g) :
    2 ≤ cycle.length := by
  match cycle, hcycle with
  | [], hcycle => exact absurd rfl hcycle.ne_nil
  | [edge], hcycle =>
      obtain ⟨hne, -⟩ := h.ends_of_mem_edges (hcycle.edges edge List.mem_cons_self)
      exact absurd hcycle.closed.symm hne
  | _ :: _ :: rest, _ => exact Nat.le_add_left 2 rest.length

/-- Whatever calls a graph comes from: it is found to be cyclic exactly if it has a cycle, that is a
walk along its edges that comes back to the file it set out from. Such a walk has two edges at
least. -/
theorem after_isCyclic_iff (calls : List Call) :
    let g := after calls
    (g.isCyclic = true ↔ ∃ cycle, g.IsCycle cycle) ∧
    ∀ cycle, g.IsCycle cycle → 2 ≤ cycle.length := by
  intro g
  have h : Consistent g := consistent_after calls
  exact ⟨h.isCyclic_iff, fun _ hcycle => hcycle.two_le_length h⟩

/-- What is reached by two ways makes no cycle, until an edge leads back from there. -/
theorem after_isCyclic_iff_of_diamond :
    let node (text : String) : Node := { id := ⟨text⟩, label := text }
    let edge (source target : String) : Edge :=
      { source := ⟨source⟩, target := ⟨target⟩, names := [], line := 1 }
    let diamond : List Call := [.node (node "a"), .node (node "b"), .node (node "c"),
      .node (node "d"), .edge (edge "a" "b"), .edge (edge "a" "c"), .edge (edge "b" "d"),
      .edge (edge "c" "d")]
    let closed := diamond ++ [.edge (edge "d" "a")]
    let cycle := [edge "d" "a", edge "a" "c", edge "c" "d"]
    (after diamond).isCyclic = false ∧ (after closed).isCyclic = true ∧
    (after closed).IsCycle cycle ∧ 2 ≤ cycle.length := by
  intro node edge diamond closed cycle
  have harcs : (after diamond).arcs.toList =
      [⟨0, 1, edge "a" "b"⟩, ⟨0, 2, edge "a" "c"⟩, ⟨1, 3, edge "b" "d"⟩, ⟨2, 3, edge "c" "d"⟩] := by
    simp [diamond, after, call, addNode, addEdge, empty, node, edge, Std.HashMap.getElem_insert]
  have hedges : (after closed).edges =
      [edge "a" "b", edge "a" "c", edge "b" "d", edge "c" "d", edge "d" "a"] := by
    simp [closed, diamond, after, call, addNode, addEdge, empty, edges, node, edge]
  have hcycle : (after closed).IsCycle cycle := by
    refine ⟨List.cons_ne_nil _ _, ?_, ?_, rfl⟩
    · rw [hedges]
      decide
    · decide
  obtain ⟨hiff, hlength⟩ := after_isCyclic_iff closed
  refine ⟨?_, hiff.2 ⟨cycle, hcycle⟩, hcycle, hlength cycle hcycle⟩
  rw [isCyclic, harcs]
  simp [cyclicPart, continued]

end Graph

end ModuleGraph
