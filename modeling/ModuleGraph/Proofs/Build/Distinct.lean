import Mathlib.Data.List.Pairwise
import ModuleGraph.Proofs.Build.Relisting
import ModuleGraph.Proofs.Path.Distinct

/-!
# One node for each path

Paths that are different and go down from the root are different files, so a graph should have a
node for each of them. The nodes are told apart by identifiers, and those of plain paths are as
different as the paths (`eq_of_isPlain`). Where no two of the paths have one identifier, the nodes
are those of the paths and the edges are those of the paths' own texts, path by path: no file is
merged into another and none is left unread (`holdsEach_of_nodup`).

Two paths of which one is not plain can have one identifier, and then they have one node only
(`merged_of_ofPath_eq`).
-/

namespace ModuleGraph

open Project

/-- Each listed path goes down from the root and can be read, and no two are one path. -/
structure Source.ListsApart (source : Source) : Prop where
  descends : ∀ path ∈ source.paths, path.Descends
  apart : source.paths.Pairwise fun path path' => ¬ path.same path' = true
  reads : ∀ path ∈ source.paths, ∃ text, source.read path = .ok text

/-- The graph has a node for each listed path, and the edges are those of the text of each path. -/
structure Graph.HoldsEach (graph : Graph) (source : Source) (settings : Settings) : Prop where
  nodes : graph.nodes.toList = source.paths.map fun path => Node.ofFile (FileId.ofPath path)
  edges : ∃ text : Path → String, (∀ path ∈ source.paths, source.read path = .ok (text path)) ∧
    graph.edges = source.paths.flatMap fun path =>
      source.edgesOf settings (FileId.ofPath path) (text path)

namespace Source.ListsApart

variable {source : Source}

theorem readable (h : source.ListsApart) : Readable source := by
  rintro path ⟨before, after, hpaths, -⟩
  exact h.reads path (hpaths ▸ List.mem_append_right _ List.mem_cons_self)

/-- Plain paths that are listed have one identifier only if they are one and the same. -/
theorem eq_of_isPlain (h : source.ListsApart) {path path' : Path} (hmem : path ∈ source.paths)
    (hmem' : path' ∈ source.paths) (hplain : path.IsPlain) (hplain' : path'.IsPlain)
    (hid : FileId.ofPath path = FileId.ofPath path') : path = path' := by
  have hsame : path.same path' = true :=
    Path.same_of_ofPath_eq (h.descends path hmem) (h.descends path' hmem') hplain hplain' hid
  by_contra hne
  have hsymm : Std.Symm fun p q : Path => ¬ p.same q = true :=
    ⟨fun _ _ hno hsame' => hno (Path.same_symm hsame')⟩
  exact h.apart.forall hmem hmem' hne hsame

theorem nodup_ids (h : source.ListsApart) (hplain : ∀ path ∈ source.paths, path.IsPlain) :
    (source.paths.map FileId.ofPath).Nodup := by
  refine List.pairwise_map.2 (h.apart.imp_of_mem fun hmem hmem' hno hid => hno ?_)
  rw [h.eq_of_isPlain hmem hmem' (hplain _ hmem) (hplain _ hmem') hid]
  exact Path.same_refl _

theorem exists_graph (h : source.ListsApart) (settings : Settings) (hne : source.paths ≠ []) :
    ∃ graph text, build source settings = .ok graph ∧
      Reads source.read (distinct ∅ source.paths) text ∧
      graph.nodes.toList = source.ids.map Node.ofFile ∧
      graph.edges = source.contents settings text := by
  obtain ⟨text, htext⟩ := h.readable.exists_reads
  obtain ⟨graph, hgraph, hnodes, hedges⟩ := build_eq_contents settings hne htext
  exact ⟨graph, text, hgraph, htext, hnodes, hedges⟩

end Source.ListsApart

variable {source : Source} {settings : Settings}

/-- Where no two paths have one identifier, no file is left out. -/
theorem Graph.holdsEach_of_nodup {graph : Graph} (hids : (source.paths.map FileId.ofPath).Nodup)
    {text : FileId → String} (htext : Reads source.read (distinct ∅ source.paths) text)
    (hnodes : graph.nodes.toList = source.ids.map Node.ofFile)
    (hedges : graph.edges = source.contents settings text) :
    graph.HoldsEach source settings := by
  refine ⟨?_, fun path => text (FileId.ofPath path), ?_, ?_⟩
  · rw [hnodes, source.ids_of_nodup hids, List.map_map]
    rfl
  · intro path hmem
    exact htext (path, FileId.ofPath path)
      (mem_distinct_iff.2 ⟨firstListed_of_nodup hids hmem, rfl⟩)
  · rw [hedges, Source.contents, source.ids_of_nodup hids, List.flatMap_map]

/-- Over different paths that go down from the root and can be read, there is a graph unless there
is no path at all. If no two of the paths have one identifier, it has a node for each path and the
edges of each path's text. Plain paths have one identifier only if they are one path, so over plain
paths alone this is the case. -/
theorem build_paths_apart (h : source.ListsApart) (settings : Settings) :
    (source.paths = [] → build source settings = .error .noFilesFound) ∧
    (source.paths ≠ [] → ∃ graph, build source settings = .ok graph ∧
      ((source.paths.map FileId.ofPath).Nodup → graph.HoldsEach source settings)) ∧
    (∀ path ∈ source.paths, ∀ path' ∈ source.paths, path.IsPlain → path'.IsPlain →
      FileId.ofPath path = FileId.ofPath path' → path = path') ∧
    ((∀ path ∈ source.paths, path.IsPlain) → (source.paths.map FileId.ofPath).Nodup) := by
  refine ⟨build_of_no_paths settings, ?_, ?_, h.nodup_ids⟩
  · intro hne
    obtain ⟨graph, text, hgraph, htext, hnodes, hedges⟩ := h.exists_graph settings hne
    exact ⟨graph, hgraph, fun hids => Graph.holdsEach_of_nodup hids htext hnodes hedges⟩
  · exact fun _ hmem _ hmem' => h.eq_of_isPlain hmem hmem'

/-- Two files of one name, which is not ASCII, in a directory and in one below it. -/
theorem build_paths_apart_of_two :
    let paths := [Path.ofString "/p/ü.ts", Path.ofString "/p/b//ü.ts"]
    let read : Path → Except FileError String := fun path => .ok
      (if path = Path.ofString "/p/ü.ts" then "import u from './b/ü'" else "")
    ∃ graph, build ⟨paths, read⟩ Settings.default = .ok graph ∧
      graph.HoldsEach ⟨paths, read⟩ Settings.default := by
  intro paths read
  have hdescends : ∀ path ∈ paths, path.Descends := by
    rw [List.forall_mem_cons, List.forall_mem_singleton]
    exact ⟨⟨by decide, by decide, by decide⟩, ⟨by decide, by decide, by decide⟩⟩
  have hplain : ∀ path ∈ paths, path.IsPlain := by
    rw [List.forall_mem_cons, List.forall_mem_singleton]
    exact ⟨⟨by decide +kernel, by decide⟩, ⟨by decide +kernel, by decide⟩⟩
  have h : Source.ListsApart ⟨paths, read⟩ := ⟨hdescends, by decide, fun _ _ => ⟨_, rfl⟩⟩
  obtain ⟨-, hgraph, -, hnodup⟩ := build_paths_apart h Settings.default
  obtain ⟨graph, hbuild, hholds⟩ := hgraph (List.cons_ne_nil _ _)
  exact ⟨graph, hbuild, hholds (hnodup hplain)⟩

/-- The two paths are different files that can be read, and a graph of them has not two nodes. -/
def Merged (p q : Path) : Prop :=
  Source.ListsApart ⟨[p, q], fun _ => .ok ""⟩ ∧
    ∃ graph, build ⟨[p, q], fun _ => .ok ""⟩ Settings.default = .ok graph ∧
      graph.nodes.toList.length ≠ 2

theorem merged_of_ofPath_eq {p q : Path} (hp : p.Descends) (hq : q.Descends)
    (hdiff : ¬ p.same q = true) (hid : FileId.ofPath p = FileId.ofPath q) : Merged p q := by
  have h : Source.ListsApart ⟨[p, q], fun _ => .ok ""⟩ := by
    refine ⟨?_, List.pairwise_pair.2 hdiff, fun _ _ => ⟨"", rfl⟩⟩
    exact List.forall_mem_cons.2 ⟨hp, List.forall_mem_singleton.2 hq⟩
  obtain ⟨graph, text, hgraph, -, hnodes, -⟩ :=
    h.exists_graph Settings.default (List.cons_ne_nil _ _)
  have hids : Source.ids ⟨[p, q], fun _ => .ok ""⟩ = [FileId.ofPath p] := by
    simp [Source.ids, hid, List.eraseDups_cons]
  refine ⟨h, graph, hgraph, ?_⟩
  rw [hnodes, hids, List.map_singleton, List.length_singleton]
  decide

/-- A name with a `\` is merged with the path that the `\` is shown as, and a name that is not text
with another that is shown alike. -/
theorem not_one_node_for_each_path :
    Merged (Path.ofString "/p/a\\b.ts") (Path.ofString "/p/a/b.ts") ∧
      Merged ⟨[Path.slash, 0x80]⟩ ⟨[Path.slash, 0x81]⟩ := by
  refine ⟨merged_of_ofPath_eq ?_ ?_ ?_ ?_, merged_of_ofPath_eq ?_ ?_ ?_ ?_⟩
  all_goals first | exact ⟨by decide, by decide, by decide⟩ | decide +kernel

end ModuleGraph
