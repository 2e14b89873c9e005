import Mathlib.Data.List.Nodup
import ModuleGraph.Json.Reader
import ModuleGraph.Proofs.Graph.History
import ModuleGraph.Proofs.TextPath.Meaning
import ModuleGraph.Serialized

/-!
# Canonical identifiers

An identifier that is made from a path is canonical: made from its own text, it is the same again.
But an identifier that is read from the record of a node or an edge is taken as it is written there,
so any text can be one.

A graph compares identifiers as they are. What it holds are the identifiers of the nodes that were
entered and no others, for an edge with any other end is refused (`Consistent.holds_iff`). They are
therefore all canonical if and only if the entered ones are, and no two of them are spellings of one
path if and only if no two of the entered ones are (`after_canonical`). It is so if all are made
from paths, and it need not be if some are read.
-/

namespace ModuleGraph

namespace FileId

/-- The identifier that is made from the text of `id`. -/
def canonical (id : FileId) : FileId :=
  ofString id.text

def IsCanonical (id : FileId) : Prop :=
  id.canonical = id

theorem isCanonical_ofString (path : String) : (ofString path).IsCanonical := by
  show (⟨String.ofList (TextPath.normalize (ofString path).text.toList)⟩ : FileId) = ofString path
  rw [ofString, String.toList_ofList, TextPath.normalize_normalize]

theorem isCanonical_ofPath (path : Path) : (ofPath path).IsCanonical :=
  isCanonical_ofString path.display

end FileId

namespace Graph

variable {g : Graph} {calls : List Call} {id : FileId}

/-! ## The identifiers in a graph -/

/-- The identifier is that of a node, or of an end of an edge. -/
def Holds (g : Graph) (id : FileId) : Prop :=
  g.Knows id ∨ ∃ edge ∈ g.edges, id = edge.source ∨ id = edge.target

/-- The ends of the edges are among the nodes. -/
theorem Consistent.holds_iff (h : Consistent g) : g.Holds id ↔ g.Knows id := by
  constructor
  · rintro (hknown | ⟨edge, hedge, hend⟩)
    · exact hknown
    · obtain ⟨-, hs, ht⟩ := h.ends_of_mem_edges hedge
      rcases hend with rfl | rfl
      · exact hs
      · exact ht
  · exact Or.inl

/-- Some call enters a node of the file. -/
def Enters (calls : List Call) (id : FileId) : Prop :=
  ∃ node, Call.node node ∈ calls ∧ node.id = id

theorem enters_cons_iff {c : Call} :
    Enters (c :: calls) id ↔ (∃ node, c = .node node ∧ node.id = id) ∨ Enters calls id := by
  constructor
  · rintro ⟨node, hmem, hid⟩
    rcases List.mem_cons.1 hmem with rfl | hmem
    · exact Or.inl ⟨node, rfl, hid⟩
    · exact Or.inr ⟨node, hmem, hid⟩
  · rintro (⟨node, rfl, hid⟩ | ⟨node, hmem, hid⟩)
    · exact ⟨node, List.mem_cons_self, hid⟩
    · exact ⟨node, List.mem_cons_of_mem c hmem, hid⟩

/-- A call makes a file known if it enters a node of it. -/
theorem Consistent.knows_call_iff (h : Consistent g) (c : Call) :
    (g.call c).Knows id ↔ g.Knows id ∨ ∃ node, c = .node node ∧ node.id = id := by
  cases c with
  | node node =>
      constructor
      · intro hknown
        rcases knows_of_addNode hknown with hold | rfl
        · exact Or.inl hold
        · exact Or.inr ⟨node, rfl, rfl⟩
      · rintro (⟨known, hmem, hid⟩ | ⟨_, ⟨⟩, hid⟩)
        · have hkept := (nodes_prefix_call g (.node node)).subset (Array.mem_toList_iff.2 hmem)
          exact ⟨known, Array.mem_toList_iff.1 hkept, hid⟩
        · by_cases hknown : g.Knows node.id
          · rw [Graph.call, (h.addNode_known hknown).1, ← hid]
            exact hknown
          · refine ⟨node, ?_, hid⟩
            rw [Graph.call, (h.addNode_new hknown).2.1]
            exact Array.mem_push_self
  | edge edge =>
      have hnodes : (g.call (.edge edge)).nodes = g.nodes := by
        rcases addEdge_cases g edge with ⟨_, _, -, -, -, heq⟩ | ⟨-, heq⟩
        · rw [Graph.call, heq]
        · rw [Graph.call, heq]
      rw [Knows, hnodes]
      constructor
      · exact Or.inl
      · rintro (hknown | ⟨_, ⟨⟩, -⟩)
        exact hknown

theorem Consistent.knows_foldl_call_iff (h : Consistent g) :
    (calls.foldl Graph.call g).Knows id ↔ g.Knows id ∨ Enters calls id := by
  induction calls generalizing g with
  | nil =>
      constructor
      · exact Or.inl
      · rintro (hknown | ⟨_, hmem, -⟩)
        · exact hknown
        · exact absurd hmem List.not_mem_nil
  | cons c calls ih =>
      rw [List.foldl_cons, ih (h.call c), h.knows_call_iff, enters_cons_iff, or_assoc]

/-- The files that are known are those of which a node was entered. -/
theorem knows_after_iff : (after calls).Knows id ↔ Enters calls id := by
  rw [after, consistent_empty.knows_foldl_call_iff]
  constructor
  · rintro (⟨_, hmem, -⟩ | hentered)
    · exact absurd hmem (Array.not_mem_empty _)
    · exact hentered
  · exact Or.inr

theorem holds_after_iff : (after calls).Holds id ↔ Enters calls id := by
  rw [(consistent_after calls).holds_iff, knows_after_iff]

theorem mem_ids_iff : id ∈ g.nodes.toList.map (·.id) ↔ g.Knows id := by
  simp only [List.mem_map, Array.mem_toList_iff, Knows]

/-! ## Canonical graphs -/

/-- The canonical identifiers of the nodes, one for each. -/
def canonicalIds (g : Graph) : List FileId :=
  g.nodes.toList.map fun node => node.id.canonical

/-- No two nodes are of spellings of one path exactly if no two entered ones are. -/
theorem nodup_canonicalIds_after_iff : (after calls).canonicalIds.Nodup ↔
    ∀ id, Enters calls id → ∀ other, Enters calls other →
      id.canonical = other.canonical → id = other := by
  have hids : (after calls).canonicalIds =
      ((after calls).nodes.toList.map (·.id)).map FileId.canonical := by
    rw [canonicalIds, List.map_map]
    rfl
  rw [hids, List.nodup_map_iff_inj_on (consistent_after calls).nodup_ids]
  simp only [mem_ids_iff, knows_after_iff]

/-- Whatever calls a graph comes from: its identifiers are all canonical if and only if those of
the entered nodes are, and no two of its nodes are of spellings of one path if and only if no two
entered ones are. Both hold if the entered nodes are of identifiers that are made from paths, as
text or as bytes; the edges may be any. -/
theorem after_canonical (calls : List Call) :
    let g := after calls
    ((∀ id, g.Holds id → id.IsCanonical) ↔ ∀ id, Enters calls id → id.IsCanonical) ∧
    (g.canonicalIds.Nodup ↔ ∀ id, Enters calls id → ∀ other, Enters calls other →
      id.canonical = other.canonical → id = other) ∧
    ((∀ id, Enters calls id → (∃ path, id = .ofString path) ∨ ∃ path, id = .ofPath path) →
      (∀ id, g.Holds id → id.IsCanonical) ∧ g.canonicalIds.Nodup) := by
  intro g
  have hcanonical : (∀ id, g.Holds id → id.IsCanonical) ↔
      ∀ id, Enters calls id → id.IsCanonical :=
    forall_congr' fun _ => imp_congr holds_after_iff Iff.rfl
  refine ⟨hcanonical, nodup_canonicalIds_after_iff, ?_⟩
  intro hmade
  have hentered : ∀ id, Enters calls id → id.IsCanonical := by
    intro id hid
    rcases hmade id hid with ⟨path, rfl⟩ | ⟨path, rfl⟩
    · exact FileId.isCanonical_ofString path
    · exact FileId.isCanonical_ofPath path
  refine ⟨hcanonical.2 hentered, nodup_canonicalIds_after_iff.2 ?_⟩
  intro id hid other hother hsame
  rwa [hentered id hid, hentered other hother] at hsame

/-- Nodes of two files, one made from text and one from bytes, and an import between them. -/
theorem after_canonical_of_made :
    let a : FileId := .ofString "/p/./a.ts"
    let b : FileId := .ofPath (.ofString "/p//b.ts")
    let calls := [.node (.ofFile a), .node (.ofFile b),
      .edge { source := a, target := b, names := [], line := 1 }]
    (∀ id, Enters calls id → (∃ path, id = .ofString path) ∨ ∃ path, id = .ofPath path) ∧
    (∀ id, (after calls).Holds id → id.IsCanonical) ∧ (after calls).canonicalIds.Nodup := by
  intro a b calls
  have hmade : ∀ id, Enters calls id →
      (∃ path, id = FileId.ofString path) ∨ ∃ path, id = FileId.ofPath path := by
    rintro _ ⟨node, hnode, rfl⟩
    simp only [calls, List.mem_cons, Call.node.injEq, reduceCtorEq, List.not_mem_nil, or_false]
      at hnode
    rcases hnode with rfl | rfl
    · exact Or.inl ⟨_, rfl⟩
    · exact Or.inr ⟨_, rfl⟩
  obtain ⟨-, -, hgraph⟩ := after_canonical calls
  exact ⟨hmade, hgraph hmade⟩

/-- A node whose record is read is of another spelling than the node that is made from the same
path, and the graph has both. -/
theorem not_after_canonical_of_read :
    let made : Node := .ofFile (.ofString "/p/a.ts")
    let read : Node := { id := ⟨"/p/./a.ts"⟩, label := "a.ts" }
    let record := "\x7b\"id\":\"/p/./a.ts\",\"label\":\"a.ts\"\x7d"
    let g := after [.node made, .node read]
    (Json.parse? record).bind Node.ofJson? = some read ∧
    (∃ id, g.Holds id ∧ ¬ id.IsCanonical) ∧ ¬ g.canonicalIds.Nodup := by
  intro made read record g
  have hmade : Enters [.node made, .node read] made.id := ⟨made, List.mem_cons_self, rfl⟩
  have hread : Enters [.node made, .node read] read.id :=
    ⟨read, List.mem_cons_of_mem _ List.mem_cons_self, rfl⟩
  have hspelled : made.id.canonical = read.id.canonical := by decide +kernel
  have hother : made.id ≠ read.id := by decide +kernel
  have hnot : read.id.canonical ≠ read.id := by decide +kernel
  refine ⟨by decide +kernel, ⟨read.id, holds_after_iff.2 hread, hnot⟩, ?_⟩
  intro hnodup
  exact hother (nodup_canonicalIds_after_iff.1 hnodup _ hmade _ hread hspelled)

end Graph

end ModuleGraph
