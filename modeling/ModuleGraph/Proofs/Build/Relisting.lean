import ModuleGraph.Proofs.Build.Contents

/-!
# Listing the files in another order

Two sources may list the same files in different orders. Which files there are is the same for
both, so every import leads to the same file in both, and each file has the same edges. What the
order of the list decides is only where the edges of a file stand among those of the others: they
come file by file, so the edges that leave one file are the same sequence in both graphs.

This needs a file. A build over no files is a failure in every order, of which there is one.
-/

namespace ModuleGraph

open Project

/-- `source'` lists the files of `source` in some order, each under the same path and once, and
every file can be read and reads the same in both. -/
structure Relisted (source source' : Source) : Prop where
  perm : source.paths.Perm source'.paths
  nodup : (source.paths.map FileId.ofPath).Nodup
  reads : ∀ path ∈ source.paths, ∃ text, source.read path = .ok text ∧ source'.read path = .ok text

/-- The graphs have the same nodes, the same edges leave each file in the same order, and so the
edges are the same as often. -/
structure Graph.Rearranged (graph graph' : Graph) : Prop where
  nodes : graph.nodes.toList.Perm graph'.nodes.toList
  leaving : ∀ id, graph.edges.filter (·.source = id) = graph'.edges.filter (·.source = id)
  edges : graph.edges.Perm graph'.edges

variable {source source' : Source}

theorem Source.ids_of_nodup (h : (source.paths.map FileId.ofPath).Nodup) :
    source.ids = source.paths.map FileId.ofPath := by
  rw [ids]
  generalize source.paths.map FileId.ofPath = ids at h
  induction ids with
  | nil => rfl
  | cons id ids ih =>
      obtain ⟨hid, hids⟩ := List.nodup_cons.1 h
      have hkept : ids.filter (fun other => !other == id) = ids := by
        refine List.filter_eq_self.2 ?_
        intro other hother
        have hne : other ≠ id := fun heq => hid (heq ▸ hother)
        simpa using hne
      rw [List.eraseDups_cons, hkept, ih hids]

namespace Relisted

theorem ids_perm (h : Relisted source source') : source.ids.Perm source'.ids := by
  have hperm := h.perm.map FileId.ofPath
  rw [Source.ids_of_nodup h.nodup, Source.ids_of_nodup (hperm.nodup_iff.1 h.nodup)]
  exact hperm

theorem mem_ids (h : Relisted source source') (id : FileId) : id ∈ source.ids ↔ id ∈ source'.ids :=
  h.ids_perm.mem_iff

theorem readable (h : Relisted source source') : Readable source := by
  rintro path ⟨before, after, hpaths, -⟩
  have hmem : path ∈ source.paths := hpaths ▸ List.mem_append_right _ List.mem_cons_self
  obtain ⟨text, htext, -⟩ := h.reads path hmem
  exact ⟨text, htext⟩

/-- What the files of one list read, those of the other read too. -/
theorem reads_relisted (h : Relisted source source') {text : FileId → String}
    (htext : Reads source.read (distinct ∅ source.paths) text) :
    Reads source'.read (distinct ∅ source'.paths) text := by
  rintro ⟨path, id⟩ hfile'
  obtain ⟨⟨before, after, hpaths, -⟩, rfl⟩ := mem_distinct_iff.1 hfile'
  have hmem : path ∈ source.paths :=
    h.perm.mem_iff.2 (hpaths ▸ List.mem_append_right _ List.mem_cons_self)
  -- no two paths are of one file, so this one is the first of its file in either list
  have hfirst : FirstListed source.paths path := firstListed_of_nodup h.nodup hmem
  obtain ⟨t, ht, ht'⟩ := h.reads path hmem
  have heq := htext (path, FileId.ofPath path) (mem_distinct_iff.2 ⟨hfirst, rfl⟩)
  rw [ht] at heq
  rwa [← Except.ok.inj heq]

theorem contents_perm (h : Relisted source source') (settings : Settings) (text : FileId → String) :
    (source.contents settings text).Perm (source'.contents settings text) := by
  simp only [Source.contents, Source.edgesOf_congr h.mem_ids]
  exact h.ids_perm.flatMap_right _

theorem contents_leaving (h : Relisted source source') (settings : Settings)
    (text : FileId → String) (id : FileId) :
    (source.contents settings text).filter (·.source = id) =
      (source'.contents settings text).filter (·.source = id) := by
  have hids : source.ids.filter (· = id) = source'.ids.filter (· = id) := by
    rw [List.filter_eq, List.filter_eq, h.ids_perm.count_eq]
  rw [Source.filter_contents (· = id), Source.filter_contents (· = id), hids]
  simp only [Source.edgesOf_congr h.mem_ids]

end Relisted

/-- Over files in one order and in another, either both builds find no files, which is the case if
there are none, or both give a graph, and the two differ in nothing but the places of the nodes and
of the files' edges. Each import leads to the same file in both. -/
theorem build_relisted (h : Relisted source source') (settings : Settings) :
    (source.paths = [] → build source settings = .error .noFilesFound ∧
      build source' settings = .error .noFilesFound) ∧
    (source.paths ≠ [] → ∃ graph graph', build source settings = .ok graph ∧
      build source' settings = .ok graph' ∧ graph.Rearranged graph') ∧
    ∀ raw id, (Resolver.ofFiles source.ids settings.extensions).resolveFrom raw id =
      (Resolver.ofFiles source'.ids settings.extensions).resolveFrom raw id := by
  refine ⟨?_, ?_, ?_⟩
  · intro hnil
    have hnil' : source'.paths = [] := (hnil ▸ h.perm).nil_eq.symm
    exact ⟨build_of_no_paths settings hnil, build_of_no_paths settings hnil'⟩
  · intro hne
    have hne' : source'.paths ≠ [] := fun hnil => hne (hnil ▸ h.perm).eq_nil
    obtain ⟨text, htext⟩ := h.readable.exists_reads
    obtain ⟨graph, hgraph, hnodes, hedges⟩ := build_eq_contents settings hne htext
    obtain ⟨graph', hgraph', hnodes', hedges'⟩ :=
      build_eq_contents settings hne' (h.reads_relisted htext)
    refine ⟨graph, graph', hgraph, hgraph', ?_, ?_, ?_⟩
    · rw [hnodes, hnodes']
      exact h.ids_perm.map Node.ofFile
    · intro id
      rw [hedges, hedges', h.contents_leaving]
    · rw [hedges, hedges']
      exact h.contents_perm settings text
  · intro raw id
    exact (Resolver.resolve_eq_iff.2 ((Resolver.search_resolve _ _).congr h.mem_ids)).symm

/-- A file whose extension is preferred is listed last and then first. -/
theorem build_relisted_reversed :
    let paths := [Path.ofString "/p/a.js", Path.ofString "/p/a.ts", Path.ofString "/p/main.ts"]
    let read : Path → Except FileError String := fun path => .ok
      (if path = Path.ofString "/p/main.ts" then "import a from './a'" else "")
    ∃ graph graph', build ⟨paths, read⟩ Settings.default = .ok graph ∧
      build ⟨paths.reverse, read⟩ Settings.default = .ok graph' ∧ graph.Rearranged graph' := by
  intro paths read
  have h : Relisted ⟨paths, read⟩ ⟨paths.reverse, read⟩ :=
    ⟨(List.reverse_perm paths).symm, by decide +kernel, fun path _ => ⟨_, rfl, rfl⟩⟩
  exact (build_relisted h Settings.default).2.1 (List.cons_ne_nil _ _)

/-- Without a file neither of two builds gives a graph. -/
theorem not_build_relisted_empty :
    let source : Source := { paths := [], read := fun path => .error (.notInSet path) }
    Relisted source source ∧ ¬ ∃ graph, build source Settings.default = .ok graph := by
  intro source
  refine ⟨⟨.refl _, List.nodup_nil, fun _ h => absurd h List.not_mem_nil⟩, ?_⟩
  rintro ⟨graph, hgraph⟩
  rw [build_of_no_paths Settings.default rfl] at hgraph
  cases hgraph

end ModuleGraph
