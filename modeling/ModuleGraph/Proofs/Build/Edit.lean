import ModuleGraph.Proofs.Build.Contents
import ModuleGraph.Proofs.Path.Identity
import ModuleGraph.Proofs.Source.FileSet

/-!
# Editing one file

Files held in memory can all be read, so a build over them fails only if there are none. Entering
a path that is there again, in whichever spelling, is an edit: the list of paths stays as it is,
and so does every text but one. The nodes and where the imports lead hang on the list alone. The
one text is of a path with the identifier of the edited one (`FileId.ofPath_eq_of_same`), so it can
only make a difference to the edges that leave this file; and if another path with that identifier
comes first in the list, it is never read and makes none.
-/

namespace ModuleGraph

open Project FileSet

variable {files : FileSet} {path : Path}

theorem readable_toSource (files : FileSet) : Readable files.toSource := by
  rintro path ⟨before, after, hpaths, -⟩
  have hmem : path ∈ files.paths := by
    change files.paths = _ at hpaths
    rw [hpaths]
    exact List.mem_append_right _ List.mem_cons_self
  exact exists_text ⟨path, hmem, Path.same_refl path⟩

/-- A build over files in memory fails only if there are none. -/
theorem exists_build_toSource_iff {settings : Settings} :
    (∃ graph, build files.toSource settings = .ok graph) ↔ files.paths ≠ [] := by
  rw [exists_build_eq_ok_iff]
  exact and_iff_left (readable_toSource files)

/-- After an edit the files of all other identifiers read as before. -/
theorem text_of_edit {text : String} {texts texts' : FileId → String}
    (hpaths : (files.insert path text).paths = files.paths)
    (h : Reads files.read (distinct ∅ files.paths) texts)
    (h' : Reads (files.insert path text).read (distinct ∅ (files.insert path text).paths) texts')
    {id : FileId} (hid : id ∈ files.toSource.ids) (hne : id ≠ FileId.ofPath path) :
    texts' id = texts id := by
  rw [← ids_ofPaths files.toSource []] at hid
  obtain ⟨⟨other, id⟩, hfile, rfl⟩ := List.mem_map.1 hid
  change (other, id) ∈ distinct ∅ files.paths at hfile
  have hread' := h' _ (hpaths.symm ▸ hfile)
  have hother : ¬ other.same path = true := by
    intro hsame
    obtain ⟨-, rfl⟩ := mem_distinct_iff.1 hfile
    exact hne (FileId.ofPath_eq_of_same hsame)
  rw [read_insert_of_other hother] at hread'
  exact Except.ok.inj (hread'.symm.trans (h _ hfile))

/-- Some files are entered, and then one of their paths is again, with any text. Before and after
there is a graph, the nodes of the two are the same, and so are the edges but for those that leave
the edited file. -/
theorem build_edit (inserts : List (Path × String)) (settings : Settings) :
    ((∃ graph, build (ofInserts inserts).toSource settings = .ok graph) ↔ inserts ≠ []) ∧
    ∀ path text, (∃ file ∈ inserts, file.1.same path = true) → ∃ graph graph',
      build (ofInserts inserts).toSource settings = .ok graph ∧
      build ((ofInserts inserts).insert path text).toSource settings = .ok graph' ∧
      graph'.nodes = graph.nodes ∧
      graph'.edges.filter (·.source ≠ FileId.ofPath path) =
        graph.edges.filter (·.source ≠ FileId.ofPath path) := by
  refine ⟨?_, ?_⟩
  · rw [exists_build_toSource_iff, ne_eq, paths_ofInserts_eq_nil_iff]
  · intro path text hknown
    have hlists : (ofInserts inserts).Lists path := lists_ofInserts hknown
    generalize ofInserts inserts = files at hlists
    have hpaths := paths_insert_of_lists hlists text
    have hne : files.paths ≠ [] := by
      obtain ⟨known, hmem, -⟩ := hlists
      exact List.ne_nil_of_mem hmem
    have hids : (files.insert path text).toSource.ids = files.toSource.ids :=
      congrArg (fun paths => (paths.map FileId.ofPath).eraseDups) hpaths
    obtain ⟨texts, htexts⟩ := (readable_toSource files).exists_reads
    obtain ⟨texts', htexts'⟩ := (readable_toSource (files.insert path text)).exists_reads
    obtain ⟨graph, hgraph, hnodes, hedges⟩ :=
      build_eq_contents settings hne htexts
    obtain ⟨graph', hgraph', hnodes', hedges'⟩ :=
      build_eq_contents settings (fun hnil => hne (hpaths ▸ hnil)) htexts'
    refine ⟨graph, graph', hgraph, hgraph', ?_, ?_⟩
    · rw [← Array.toList_inj, hnodes, hnodes', hids]
    · rw [hedges, hedges', Source.filter_contents (· ≠ FileId.ofPath path),
        Source.filter_contents (· ≠ FileId.ofPath path), hids]
      rw [List.flatMap_def, List.flatMap_def]
      refine congrArg List.flatten (List.map_congr_left ?_)
      intro id hid
      obtain ⟨hmem, hother⟩ := List.mem_filter.1 hid
      rw [text_of_edit hpaths htexts htexts' hmem (of_decide_eq_true hother)]
      exact Source.edgesOf_congr (fun id => by rw [hids]) id _

/-- The second of two files is edited under another spelling of its path, and no longer imports the
first. -/
theorem build_edit_respelled :
    let files := ofInserts
      [(Path.ofString "/p/a.ts", "import b from './b'"),
        (Path.ofString "/p/b.ts", "import a from './a'")]
    let respelled := Path.ofString "/p//./b.ts/"
    ∃ graph graph', build files.toSource Settings.default = .ok graph ∧
      build (files.insert respelled "").toSource Settings.default = .ok graph' ∧
      graph'.nodes = graph.nodes ∧
      graph'.edges.filter (·.source ≠ FileId.ofPath respelled) =
        graph.edges.filter (·.source ≠ FileId.ofPath respelled) := by
  intro files respelled
  have hsame : (Path.ofString "/p/b.ts").same respelled = true := by decide +kernel
  exact (build_edit _ Settings.default).2 respelled ""
    ⟨_, List.mem_cons_of_mem _ List.mem_cons_self, hsame⟩

end ModuleGraph
