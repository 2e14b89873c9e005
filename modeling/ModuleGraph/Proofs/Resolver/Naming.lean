import ModuleGraph.Proofs.Build.Contents
import ModuleGraph.Proofs.Graph.Canonical
import ModuleGraph.Proofs.TextPath.Relative

/-!
# Every file can be named

A known file with an absolute path has a name in every other: the way from the directory of the one
up to any directory that they have in common, and down to the other. A specifier that joins to the
very path of a known file means this file, whatever the extensions are and whatever files are known
besides (`resolveFrom_of_join`), because exact paths come before stems and added extensions. So all
that is left is what the specifiers join to.

A file also has a name in itself, the name it has in its directory. An import of it leads back to
the file, and a build leaves it out, so the edges of a file are those of its other imports
(`edgesOf_others`).
-/

namespace ModuleGraph

open TextPath Project

namespace FileId

/-- The identifier is made from an absolute path. -/
structure IsRooted (id : FileId) : Prop where
  canonical : id.IsCanonical
  absolute : isAbsolute id.text.toList = true

/-- What a file is called in its own directory. -/
def ownNames (id : FileId) : List String :=
  [id.fileName, "./" ++ id.fileName]

theorem IsRooted.exists_text {id : FileId} (h : id.IsRooted) :
    ∃ form : NormalForm, form.absolute = true ∧ id.text.toList = form.text := by
  have hnormal : normalize id.text.toList = id.text.toList := by
    have htext := congrArg (·.text.toList) h.canonical
    simpa only [FileId.canonical, ofString, String.toList_ofList] using htext
  obtain ⟨form, hform⟩ := isCanonical_iff_exists_text.1 (normalize_eq_self_iff.1 hnormal)
  refine ⟨form, ?_, hform⟩
  rw [← form.isAbsolute_text, ← hform, h.absolute]

theorem toList_parent (id : FileId) : id.parent.toList = TextPath.parent id.text.toList := by
  rw [parent, String.toList_ofList]

theorem IsRooted.exists_parent {id : FileId} (h : id.IsRooted) :
    ∃ dir : NormalForm, dir.absolute = true ∧ id.parent.toList = dir.text := by
  obtain ⟨form, habs, htext⟩ := h.exists_text
  exact ⟨form.outer, habs, by rw [toList_parent, htext, NormalForm.parent_text habs]⟩

/-- A file's own names join to its path in its own directory. -/
theorem IsRooted.join_own {id : FileId} (h : id.IsRooted) {own : String} (hown : own ∈ id.ownNames) :
    join id.parent.toList own.toList = id.text.toList := by
  obtain ⟨form, habs, htext⟩ := h.exists_text
  have hjoin : join id.parent.toList id.fileName.toList = id.text.toList := by
    rw [toList_parent, fileName, String.toList_ofList, htext, NormalForm.join_fileName habs]
  rcases List.mem_cons.1 hown with rfl | hown
  · exact hjoin
  · have hrel : isAbsolute (unify id.fileName.toList) = false := by
      rw [fileName, String.toList_ofList, htext, NormalForm.isAbsolute_fileName habs]
    rw [List.mem_singleton.1 hown, String.toList_append, ← hjoin]
    exact join_here_slash hrel _

end FileId

variable {files : List FileId} {extensions : List String} {source : Source} {settings : Settings}

/-! ## Known paths are found -/

/-- A specifier that joins to the path of a known file means the file. -/
theorem Resolver.resolveFrom_of_join {raw : String} {importer id : FileId} (hmem : id ∈ files)
    (h : join importer.parent.toList raw.toList = id.text.toList) :
    (ofFiles files extensions).resolveFrom raw importer = some id := by
  have hid : fileAt (join importer.parent.toList raw.toList) = id := by
    rw [fileAt, h, String.ofList_toList]
  refine resolve_eq_iff.2 ?_
  rw [← hid]
  exact .itself (hid.symm ▸ hmem)

/-! ## Imports of one's own name -/

theorem resolveFrom_own {id : FileId} (h : id.IsRooted) (hmem : id ∈ files) {own : String}
    (hown : own ∈ id.ownNames) :
    (Resolver.ofFiles files extensions).resolveFrom own id = some id :=
  Resolver.resolveFrom_of_join hmem (h.join_own hown)

/-- The edges of a file are those of the imports that do not name the file itself. -/
theorem edgesOf_others {id : FileId} (h : id.IsRooted) (hmem : id ∈ source.ids) (text : String) :
    source.edgesOf settings id text =
      ((importsOf text).filter (·.specifier ∉ id.ownNames)).filterMap
        ((ofPaths source.paths settings.extensions).edge? id) := by
  rw [← edgesOf_ofPaths, Project.edgesOf, List.filterMap_filter]
  refine List.filterMap_congr ?_
  intro i _
  split
  · rfl
  · next hown =>
    have hown : i.specifier ∈ id.ownNames := by simpa using hown
    have hself : (ofPaths source.paths settings.extensions).resolver.resolveFrom i.specifier id =
        some id := resolveFrom_own h (ids_ofPaths source settings.extensions ▸ hmem) hown
    rw [edge?, hself]
    exact if_pos rfl

/-- Every file with an absolute path is found under a name from every other such file, known or not:
from the directory of the one up to a directory that is common to both, whichever it is, and down;
and under its whole path. A file is found under its own name in its own directory, so that no build
has an edge from an import of it, whatever files are listed. -/
theorem resolveFrom_named :
    (∀ (files : List FileId) (extensions : List String) (a b : FileId), a.IsRooted → b.IsRooted →
      b ∈ files →
      (∀ common left rest, segments a.parent.toList = common ++ left →
        segments b.text.toList = common ++ rest →
        (Resolver.ofFiles files extensions).resolveFrom
          (String.ofList (relative left.length rest)) a = some b) ∧
      (Resolver.ofFiles files extensions).resolveFrom b.text a = some b) ∧
    (∀ (files : List FileId) (extensions : List String) (a : FileId), a.IsRooted → a ∈ files →
      ∀ own ∈ a.ownNames, (Resolver.ofFiles files extensions).resolveFrom own a = some a) ∧
    ∀ (source : Source) (settings : Settings) (graph : Graph) (path : Path) (text : String),
      build source settings = .ok graph → FirstListed source.paths path →
      source.read path = .ok text → isAbsolute (FileId.ofPath path).text.toList = true →
      graph.edges.filter (·.source = FileId.ofPath path) =
        ((importsOf text).filter (·.specifier ∉ (FileId.ofPath path).ownNames)).filterMap
          ((ofPaths source.paths settings.extensions).edge? (FileId.ofPath path)) := by
  refine ⟨?_, fun _ _ _ h hmem _ hown => resolveFrom_own h hmem hown, ?_⟩
  · intro files extensions a b ha hb hmem
    obtain ⟨dir, hdir, hparent⟩ := ha.exists_parent
    obtain ⟨form, habs, htext⟩ := hb.exists_text
    refine ⟨?_, ?_⟩
    · intro common left rest hleft hrest
      rw [hparent] at hleft
      rw [htext] at hrest
      refine Resolver.resolveFrom_of_join hmem ?_
      rw [String.toList_ofList, hparent, htext]
      exact NormalForm.join_relative hdir habs hleft hrest
    · refine Resolver.resolveFrom_of_join hmem ?_
      rw [htext]
      exact NormalForm.join_text habs _
  · intro source settings graph path text hgraph hpath hread habs
    have hmem : FileId.ofPath path ∈ source.ids := by
      rw [← ids_ofPaths source settings.extensions]
      exact List.mem_map_of_mem (mem_distinct_iff.2 ⟨hpath, rfl⟩)
    rw [edges_leaving_of_build hgraph hpath hread]
    exact edgesOf_others ⟨FileId.isCanonical_ofPath path, habs⟩ hmem text

/-- Up to `/p` or up to the root, past a file that reads the same with an extension more; and two
files of one directory and one text, which is an import of the first. -/
theorem resolveFrom_named_of_siblings :
    let a : FileId := ⟨"/p/q/x.ts"⟩
    let b : FileId := ⟨"/p/r/y.ts"⟩
    let files : List FileId := [⟨"/p/r/y.ts.js"⟩, b, a]
    let path := Path.ofString "/p/q/x.ts"
    let text := "import x from './x.ts'"
    (Resolver.ofFiles files ["js"]).resolveFrom "../r/y.ts" a = some b ∧
    (Resolver.ofFiles files ["js"]).resolveFrom "../../p/r/y.ts" a = some b ∧
    (Resolver.ofFiles files ["js"]).resolveFrom "/p/r/y.ts" a = some b ∧
    (Resolver.ofFiles files ["js"]).resolveFrom "./x.ts" a = some a ∧
    ∃ (source : Source) (graph : Graph), build source Settings.default = .ok graph ∧
      FirstListed source.paths path ∧ source.read path = .ok text ∧
      graph.edges.filter (·.source = FileId.ofPath path) =
        ((importsOf text).filter (·.specifier ∉ (FileId.ofPath path).ownNames)).filterMap
          ((ofPaths source.paths Settings.default.extensions).edge? (FileId.ofPath path)) := by
  intro a b files path text
  have ha : a.IsRooted := ⟨show a.canonical = a by decide +kernel, by decide⟩
  have hb : b.IsRooted := ⟨show b.canonical = b by decide +kernel, by decide⟩
  obtain ⟨hnamed, hown, hdropped⟩ := resolveFrom_named
  obtain ⟨hrelative, habsolute⟩ := hnamed files ["js"] a b ha hb (by decide)
  have hnear := hrelative ["p".toList] ["q".toList] ["r".toList, "y.ts".toList]
    (by decide +kernel) (by decide +kernel)
  have hfar := hrelative [] ["p".toList, "q".toList] ["p".toList, "r".toList, "y.ts".toList]
    (by decide +kernel) (by decide +kernel)
  have hnearSpelled : String.ofList (relative ["q".toList].length ["r".toList, "y.ts".toList]) =
      "../r/y.ts" := by decide +kernel
  have hfarSpelled : String.ofList (relative ["p".toList, "q".toList].length
      ["p".toList, "r".toList, "y.ts".toList]) = "../../p/r/y.ts" := by decide +kernel
  rw [hnearSpelled] at hnear
  rw [hfarSpelled] at hfar
  let source : Source :=
    { paths := [path, Path.ofString "/p/q/y.ts"], read := fun _ => .ok text }
  obtain ⟨graph, hgraph⟩ : ∃ graph, build source Settings.default = .ok graph :=
    build_of_readable Settings.default (List.cons_ne_nil _ _) fun _ _ => ⟨_, rfl⟩
  have hfirst : FirstListed source.paths path := ⟨[], _, rfl, List.not_mem_nil⟩
  refine ⟨hnear, hfar, habsolute, hown files ["js"] a ha (by decide) "./x.ts" (by decide +kernel),
    source, graph, hgraph, hfirst, rfl, ?_⟩
  exact hdropped source Settings.default graph path text hgraph hfirst rfl (by decide +kernel)

end ModuleGraph
