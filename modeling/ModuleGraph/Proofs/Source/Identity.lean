import ModuleGraph.Proofs.Build.Files
import ModuleGraph.Proofs.Path.Identity
import ModuleGraph.Proofs.Source.Classes

/-!
# Entries of a set and files of a build

A set of files holds a file once for each path, however the path is spelled. A build holds it once
for each identifier. Spellings of a path have one identifier (`FileId.ofPath_eq_of_same`), so the
build never tells apart what the set takes for one file, and entering a path in a second spelling is
lost on it: it finds the files, each under the path it was first entered as, that it would find in
the list of all paths ever entered (`distinct_paths_ofInserts`).

The other way it fails. The set does not resolve `..`, which may lead through a link, and the
identifier does, so two entries may be one file of the build.
-/

namespace ModuleGraph

open Project

/-! ## What was entered, as a build finds it -/

/-- A build over a set finds the new file last, or does not notice it. -/
theorem distinct_paths_insert (files : FileSet) (path : Path) (text : String) :
    distinct ∅ (files.insert path text).paths = distinct ∅ (files.paths ++ [path]) := by
  by_cases h : files.Lists path
  · obtain ⟨known, hknown, hsame⟩ := id h
    have hid : FileId.ofPath path ∈ files.paths.map FileId.ofPath :=
      FileId.ofPath_eq_of_same hsame ▸ List.mem_map_of_mem hknown
    rw [FileSet.paths_insert_of_lists h, distinct_of_repeated [] hid, List.append_nil]
  · rw [FileSet.paths_insert_of_new h]

theorem distinct_paths_ofInserts (inserts : List (Path × String)) :
    distinct ∅ (FileSet.ofInserts inserts).paths = distinct ∅ (inserts.map (·.1)) := by
  induction inserts using List.reverseRecOn with
  | nil => rfl
  | append_singleton inserts file ih =>
      rw [FileSet.ofInserts_concat, distinct_paths_insert, distinct_append_congr ih [file.1],
        List.map_append, List.map_singleton]

/-! ## One path, one file -/

/-- The identifier of a file is made from the components of its path, and spellings of a path have
one identifier. So a build over a set finds the files that it would find in the list of everything
entered, and there are no more of them than entries of the set. -/
theorem ofPath_respelled :
    (∀ p q : Path, p.same q = true → FileId.ofPath p = FileId.ofPath q) ∧
    (∀ p : Path, FileId.ofPath p = FileId.ofComponents p.components) ∧
    ∀ inserts : List (Path × String),
      distinct ∅ (FileSet.ofInserts inserts).toSource.paths = distinct ∅ (inserts.map (·.1)) ∧
      (distinct ∅ (inserts.map (·.1))).length ≤ (FileSet.ofInserts inserts).size := by
  refine ⟨fun _ _ => FileId.ofPath_eq_of_same, FileId.ofPath_eq_ofComponents, fun inserts => ?_⟩
  have hpaths := distinct_paths_ofInserts inserts
  refine ⟨hpaths, ?_⟩
  calc (distinct ∅ (inserts.map (·.1))).length
      = (distinct ∅ (FileSet.ofInserts inserts).paths).length := by rw [hpaths]
    _ ≤ (FileSet.ofInserts inserts).paths.length := length_distinct_le ∅ _
    _ = (FileSet.ofInserts inserts).size := List.length_map _

/-- A name that is cut off inside a character, in two spellings of its path. -/
theorem ofPath_respelled_of_cut :
    let cut : List UInt8 := [0x61, 0xE2, 0x82]
    let p : Path := ⟨[0x2F, 0x70, 0x2F] ++ cut ++ [0x2F, 0x2F, 0x2E, 0x2F, 0x78]⟩
    let q : Path := ⟨[0x2F, 0x70, 0x2F, 0x2F] ++ cut ++ [0x2F, 0x78, 0x2F]⟩
    p.same q = true ∧ p.bytes ≠ q.bytes ∧ FileId.ofPath p = FileId.ofPath q := by
  intro cut p q
  have hsame : p.same q = true := by decide
  exact ⟨hsame, by decide, ofPath_respelled.1 p q hsame⟩

/-- A `..` is kept by the set and resolved by the build. -/
theorem not_same_of_ofPath_eq :
    let p := Path.ofString "/p/x/../a.ts"
    let q := Path.ofString "/p/a.ts"
    let files := FileSet.ofInserts [(p, ""), (q, "")]
    FileId.ofPath p = FileId.ofPath q ∧ ¬ p.same q = true ∧ files.size = 2 ∧
      (distinct ∅ files.toSource.paths).length = 1 := by
  intro p q files
  have hid : FileId.ofPath p = FileId.ofPath q := by decide +kernel
  have hpaths : files.toSource.paths = [p] ++ q :: [] := by decide +kernel
  refine ⟨hid, by decide +kernel, by decide +kernel, ?_⟩
  have hrepeated : FileId.ofPath q ∈ [p].map FileId.ofPath := List.mem_singleton.2 hid.symm
  rw [hpaths, distinct_of_repeated [] hrepeated, List.append_nil,
    distinct_of_new [] Std.HashSet.not_mem_empty]
  rfl

end ModuleGraph
