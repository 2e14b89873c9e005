import Mathlib.Data.List.Nodup
import ModuleGraph.Proofs.Build.Assembly

/-!
# Two builds side by side

What a build returns is a function of three things: the identifiers of the files in the order of
the list, the texts, and where the imports lead (`build_eq_contents`). Laws about two builds are
read off this. Where an import leads depends on which files there are and on nothing else
(`leadsTo?_congr`), and the edges with certain sources are the edges of these files
(`filter_contents`), so those that leave one file come from its own text (`edges_leaving_of_build`).
-/

namespace ModuleGraph

open Project

/-- The edges of all files, where `text` is what each of them reads. -/
def Source.contents (source : Source) (settings : Settings) (text : FileId → String) : List Edge :=
  source.ids.flatMap fun id => source.edgesOf settings id (text id)

variable {source source' : Source} {settings : Settings}

/-! ## What is built from given texts -/

theorem Source.joins_of_mem_contents {text : FileId → String} {edge : Edge}
    (h : edge ∈ source.contents settings text) : source.Joins edge := by
  obtain ⟨id, hid, hmem⟩ := List.mem_flatMap.1 h
  obtain ⟨hsource, htarget, hdiff⟩ := ends_of_mem_edgesOf hmem
  exact ⟨hdiff, hsource.symm ▸ hid, htarget⟩

/-- The graph of files that can be read, in full. -/
theorem build_eq_contents (settings : Settings) {text : FileId → String} (hne : source.paths ≠ [])
    (htext : Reads source.read (distinct ∅ source.paths) text) :
    ∃ graph, build source settings = .ok graph ∧
      graph.nodes.toList = source.ids.map Node.ofFile ∧
      graph.edges = source.contents settings text := by
  have hgathered : (distinct ∅ source.paths).flatMap (fun file =>
      (ofPaths source.paths settings.extensions).edgesOf file.2 (text file.2)) =
      source.contents settings text := by
    rw [Source.contents, ← ids_ofPaths source settings.extensions, List.flatMap_map]
    simp only [edgesOf_ofPaths]
    rfl
  have hjoins : ∀ edge ∈ source.contents settings text, source.Joins edge :=
    fun _ => Source.joins_of_mem_contents
  obtain ⟨-, hnodes, hedges⟩ := graph_ofPaths settings.extensions hjoins
  refine ⟨_, ?_, hnodes, hedges⟩
  rw [build_of_paths settings hne, htext.gather, hgathered]
  rfl

/-! ## Where imports lead -/

/-- An import leads to the same file wherever the same files are listed. -/
theorem Source.leadsTo?_congr (h : ∀ id, id ∈ source.ids ↔ id ∈ source'.ids) (id : FileId)
    (i : Import) : source.leadsTo? settings id i = source'.leadsTo? settings id i := by
  rw [leadsTo?, leadsTo?]
  refine congrArg (Option.filter _) ?_
  exact (Resolver.resolve_eq_iff.2 ((Resolver.search_resolve _ _).congr h)).symm

theorem Source.edgesOf_congr (h : ∀ id, id ∈ source.ids ↔ id ∈ source'.ids) (id : FileId)
    (text : String) : source.edgesOf settings id text = source'.edgesOf settings id text := by
  simp only [edgesOf, leadsTo?_congr h]

/-! ## The edges of some of the files -/

theorem Source.filter_edgesOf (p : FileId → Bool) (id : FileId) (text : String) :
    (source.edgesOf settings id text).filter (p ·.source) =
      if p id then source.edgesOf settings id text else [] := by
  have hsource : ∀ edge ∈ source.edgesOf settings id text, p edge.source = p id := by
    intro edge hedge
    rw [(ends_of_mem_edgesOf hedge).1]
  cases hp : p id with
  | true => exact List.filter_eq_self.2 fun edge hedge => (hsource edge hedge).trans hp
  | false => exact List.filter_eq_nil_iff.2 fun edge hedge => by simp [hsource edge hedge, hp]

/-- The edges with certain sources are the edges of these files, in the same order. -/
theorem Source.filter_contents (p : FileId → Bool) (text : FileId → String) :
    (source.contents settings text).filter (p ·.source) =
      (source.ids.filter p).flatMap fun id => source.edgesOf settings id (text id) := by
  rw [contents, List.filter_flatMap]
  simp only [filter_edgesOf]
  induction source.ids with
  | nil => rfl
  | cons id ids ih =>
      rw [List.flatMap_cons, ih]
      cases hp : p id with
      | true => rw [List.filter_cons_of_pos hp, List.flatMap_cons, if_pos rfl]
      | false => rw [List.filter_cons_of_neg (by simp [hp]), if_neg Bool.false_ne_true,
          List.nil_append]

/-- The edges that leave a file of a built graph are those of the file's own imports. -/
theorem edges_leaving_of_build {graph : Graph} {path : Path} {text : String}
    (h : build source settings = .ok graph) (hpath : FirstListed source.paths path)
    (hread : source.read path = .ok text) :
    graph.edges.filter (·.source = FileId.ofPath path) =
      source.edgesOf settings (FileId.ofPath path) text := by
  obtain ⟨hne, hok⟩ := exists_build_eq_ok_iff.1 ⟨graph, h⟩
  obtain ⟨texts, htexts⟩ := hok.exists_reads
  obtain ⟨built, hbuilt, -, hedges⟩ := build_eq_contents settings hne htexts
  rw [h] at hbuilt
  cases hbuilt
  have hfile : (path, FileId.ofPath path) ∈ distinct ∅ source.paths :=
    mem_distinct_iff.2 ⟨hpath, rfl⟩
  have htext : texts (FileId.ofPath path) = text :=
    Except.ok.inj ((htexts _ hfile).symm.trans hread)
  have hmem : FileId.ofPath path ∈ source.ids := by
    rw [← ids_ofPaths source settings.extensions]
    exact List.mem_map_of_mem hfile
  have hnodup : source.ids.Nodup := by
    rw [← ids_ofPaths source settings.extensions]
    exact nodup_ids_distinct ∅ source.paths
  rw [hedges, Source.filter_contents (· = FileId.ofPath path), List.filter_eq,
    List.count_eq_one_of_mem hnodup hmem, List.replicate_one, List.flatMap_singleton, htext]

end ModuleGraph
