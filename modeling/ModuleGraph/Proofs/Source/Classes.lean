import Mathlib.Data.List.Induction
import Mathlib.Data.Set.Card
import ModuleGraph.Proofs.Path.Spelling
import ModuleGraph.Proofs.Source.FileSet

/-!
# Files that are entered make a map

All spellings of a path are one key. Whatever is entered, the files are a map in the order in which
its keys were first entered (`IsMapOf`): each key is listed once, as it was first spelled
(`paths_ofInserts`), and reads what was entered last under any of its spellings (`read_ofInserts`).
So there are as many files as classes of spellings that were entered (`size_eq_ncard`).
-/

namespace ModuleGraph

/-- The spellings of a path are a class. -/
instance Path.setoid : Setoid Path where
  r p q := p.same q = true
  iseqv := ⟨Path.same_refl, Path.same_symm, Path.same_trans⟩

namespace FileSet

/-- The files are what was entered as a map whose keys are paths in any spelling. -/
structure IsMapOf (files : FileSet) (inserts : List (Path × String)) : Prop where
  /-- The keys in the order in which they were first entered, as they were first spelled. -/
  paths : files.paths = (inserts.map (·.1)).eraseDupsBy Path.same
  apart : files.paths.Pairwise fun path path' => ¬ path.same path' = true
  lists_iff : ∀ path, files.Lists path ↔ ∃ file ∈ inserts, file.1.same path = true
  size : files.size = {key : Quotient Path.setoid | ∃ file ∈ inserts, ⟦file.1⟧ = key}.ncard
  /-- What is read is what was entered last. -/
  read_ok : ∀ path text, files.read path = .ok text ↔
    ∃ before entered after, inserts = before ++ (entered, text) :: after ∧
      entered.same path = true ∧ ∀ file ∈ after, ¬ file.1.same path = true
  read_error : ∀ path cause, files.read path = .error cause ↔
    cause = .notInSet path ∧ ∀ file ∈ inserts, ¬ file.1.same path = true

variable {files : FileSet} {path : Path}

/-! ## Keys -/

theorem lists_iff_any : files.Lists path ↔ files.paths.any (·.same path) = true := by
  rw [List.any_eq_true]
  rfl

/-- Entering more files adds their keys, unless they are there, each where it first occurs. -/
theorem paths_foldl_insert (files : FileSet) (inserts : List (Path × String)) :
    (inserts.foldl (fun files file => files.insert file.1 file.2) files).paths =
      files.paths ++ ((inserts.map (·.1)).filter fun path =>
        !files.paths.any (·.same path)).eraseDupsBy Path.same := by
  induction inserts generalizing files with
  | nil => exact (List.append_nil _).symm
  | cons file rest ih =>
      rw [List.foldl_cons, ih, List.map_cons]
      by_cases h : files.Lists file.1
      · rw [paths_insert_of_lists h, List.filter_cons_of_neg]
        simpa using lists_iff_any.1 h
      · have hany : files.paths.any (·.same file.1) = false := by
          rw [← Bool.not_eq_true, ← lists_iff_any]
          exact h
        rw [paths_insert_of_new h, List.filter_cons_of_pos (by simp [hany]),
          List.eraseDupsBy_cons, List.append_assoc, List.singleton_append, List.filter_filter]
        refine congrArg (fun later => files.paths ++ file.1 :: List.eraseDupsBy Path.same later) ?_
        refine List.filter_congr fun path _ => ?_
        have hsymm : file.1.same path = path.same file.1 :=
          Bool.eq_iff_iff.2 ⟨Path.same_symm, Path.same_symm⟩
        simp [List.any_append, hsymm, Bool.and_comm]

theorem paths_ofInserts (inserts : List (Path × String)) :
    (ofInserts inserts).paths = (inserts.map (·.1)).eraseDupsBy Path.same := by
  have hall : (inserts.map (·.1)).filter (fun path => !empty.paths.any (·.same path)) =
      inserts.map (·.1) := List.filter_eq_self.2 fun _ _ => rfl
  rw [ofInserts, paths_foldl_insert, hall]
  rfl

/-- Entering a file keeps the keys apart. -/
theorem pairwise_paths_insert (h : files.paths.Pairwise fun path path' => ¬ path.same path' = true)
    (path : Path) (text : String) :
    (files.insert path text).paths.Pairwise fun path path' => ¬ path.same path' = true := by
  by_cases hlists : files.Lists path
  · rwa [paths_insert_of_lists hlists]
  · rw [paths_insert_of_new hlists, List.pairwise_append]
    refine ⟨h, List.pairwise_singleton _ _, fun known hknown other hother hsame => ?_⟩
    rw [List.mem_singleton.1 hother] at hsame
    exact hlists ⟨known, hknown, hsame⟩

theorem ofInserts_concat (inserts : List (Path × String)) (file : Path × String) :
    ofInserts (inserts ++ [file]) = (ofInserts inserts).insert file.1 file.2 :=
  List.foldl_append

theorem pairwise_paths_ofInserts (inserts : List (Path × String)) :
    (ofInserts inserts).paths.Pairwise fun path path' => ¬ path.same path' = true := by
  induction inserts using List.reverseRecOn with
  | nil => exact List.Pairwise.nil
  | append_singleton inserts file ih =>
      rw [ofInserts_concat]
      exact pairwise_paths_insert ih _ _

/-- What is listed was entered. -/
theorem subset_paths_ofInserts (inserts : List (Path × String)) :
    (ofInserts inserts).paths ⊆ inserts.map (·.1) := by
  induction inserts using List.reverseRecOn with
  | nil => exact List.Subset.refl _
  | append_singleton inserts file ih =>
      rw [ofInserts_concat, List.map_append]
      by_cases h : (ofInserts inserts).Lists file.1
      · rw [paths_insert_of_lists h]
        exact List.subset_append_of_subset_left _ ih
      · rw [paths_insert_of_new h]
        exact List.append_subset.2
          ⟨List.subset_append_of_subset_left _ ih, List.subset_append_right _ _⟩

theorem lists_ofInserts_iff {inserts : List (Path × String)} :
    (ofInserts inserts).Lists path ↔ ∃ file ∈ inserts, file.1.same path = true := by
  constructor
  · rintro ⟨known, hknown, hsame⟩
    obtain ⟨file, hfile, rfl⟩ := List.mem_map.1 (subset_paths_ofInserts inserts hknown)
    exact ⟨file, hfile, hsame⟩
  · exact lists_ofInserts

/-! ## Counting the keys -/

theorem size_eq_ncard (inserts : List (Path × String)) :
    (ofInserts inserts).size =
      {key : Quotient Path.setoid | ∃ file ∈ inserts, ⟦file.1⟧ = key}.ncard := by
  classical
  let keys := (ofInserts inserts).paths.map (Quotient.mk Path.setoid)
  have hnodup : keys.Nodup := by
    refine List.pairwise_map.2 ((pairwise_paths_ofInserts inserts).imp ?_)
    exact fun hno heq => hno (Quotient.exact heq)
  have hkeys : {key : Quotient Path.setoid | ∃ file ∈ inserts, ⟦file.1⟧ = key} =
      ↑keys.toFinset := by
    ext key
    obtain ⟨path, rfl⟩ := key.exists_rep
    have hmem : ⟦path⟧ ∈ keys ↔ (ofInserts inserts).Lists path := by
      rw [List.mem_map]
      exact exists_congr fun known => and_congr_right fun _ => Quotient.eq
    rw [Finset.mem_coe, List.mem_toFinset, hmem, lists_ofInserts_iff]
    exact exists_congr fun file => and_congr_right fun _ => Quotient.eq
  rw [hkeys, Set.ncard_coe_finset, List.toFinset_card_of_nodup hnodup, List.length_map, paths,
    List.length_map]
  rfl

/-! ## Reading a key -/

/-- What is read is what was entered last under any spelling. -/
theorem read_ofInserts (inserts : List (Path × String)) (path : Path) :
    (ofInserts inserts).read path =
      match inserts.reverse.find? (·.1.same path) with
      | some file => .ok file.2
      | none => .error (.notInSet path) := by
  induction inserts using List.reverseRecOn with
  | nil => rfl
  | append_singleton inserts file ih =>
      rw [ofInserts_concat, List.reverse_append, List.reverse_singleton, List.singleton_append,
        List.find?_cons]
      by_cases h : file.1.same path = true
      · rw [read_insert_of_same h, h]
      · rw [read_insert_of_other (fun hsame => h (Path.same_symm hsame)), ih,
          Bool.eq_false_of_not_eq_true h]

/-- The last entry of a path, with what was entered before and after it. -/
theorem find?_reverse_eq_some_iff {inserts : List (Path × String)} {file : Path × String} :
    inserts.reverse.find? (·.1.same path) = some file ↔
      ∃ before after, inserts = before ++ file :: after ∧ file.1.same path = true ∧
        ∀ later ∈ after, ¬ later.1.same path = true := by
  rw [List.find?_eq_some_iff_append]
  constructor
  · rintro ⟨hsame, after, before, hinserts, hafter⟩
    refine ⟨before.reverse, after.reverse, ?_, hsame, fun later hlater => ?_⟩
    · simpa using congrArg List.reverse hinserts
    · simpa using hafter later (List.mem_reverse.1 hlater)
  · rintro ⟨before, after, rfl, hsame, hafter⟩
    refine ⟨hsame, after.reverse, before.reverse, by simp, fun later hlater => ?_⟩
    simpa using hafter later (List.mem_reverse.1 hlater)

theorem read_ofInserts_eq_ok_iff {inserts : List (Path × String)} {text : String} :
    (ofInserts inserts).read path = .ok text ↔
      ∃ before entered after, inserts = before ++ (entered, text) :: after ∧
        entered.same path = true ∧ ∀ file ∈ after, ¬ file.1.same path = true := by
  rw [read_ofInserts]
  constructor
  · intro h
    split at h
    · next file hfind =>
        cases h
        obtain ⟨before, after, hinserts, hsame, hafter⟩ := find?_reverse_eq_some_iff.1 hfind
        exact ⟨before, file.1, after, hinserts, hsame, hafter⟩
    · cases h
  · rintro ⟨before, entered, after, hinserts, hsame, hafter⟩
    rw [find?_reverse_eq_some_iff.2 ⟨before, after, hinserts, hsame, hafter⟩]

theorem read_ofInserts_eq_error_iff {inserts : List (Path × String)} {cause : FileError} :
    (ofInserts inserts).read path = .error cause ↔
      cause = .notInSet path ∧ ∀ file ∈ inserts, ¬ file.1.same path = true := by
  have hnone : inserts.reverse.find? (·.1.same path) = none ↔
      ∀ file ∈ inserts, ¬ file.1.same path = true := by
    simp [List.find?_eq_none]
  rw [read_ofInserts, ← hnone]
  cases inserts.reverse.find? (·.1.same path) with
  | none => simp [eq_comm]
  | some file => simp

/-! ## The whole map -/

/-- Spellings of one path are those that come from each other by dropping and adding slashes and
`.`s that do not count. They start with the same segment and go on with the same segments that
count, and they are classes. Whatever is entered, the files are a map with these classes as
keys. -/
theorem ofInserts_isMapOf (inserts : List (Path × String)) :
    (Equivalence fun path path' : Path => path.same path' = true) ∧
    (∀ path path' : Path, path.same path' = true ↔ path.Respells path') ∧
    (∀ path path' : Path, path.same path' = true →
      path.segments.head? = path'.segments.head? ∧ path.keptSegments = path'.keptSegments) ∧
    (ofInserts inserts).IsMapOf inserts := by
  refine ⟨Path.setoid.iseqv, fun _ _ => Path.same_iff_respells, ?_, ?_⟩
  · intro path path' hsame
    have hrespells := Path.same_iff_respells.1 hsame
    exact ⟨hrespells.head?_segments, hrespells.keptSegments⟩
  · exact
      { paths := paths_ofInserts inserts
        apart := pairwise_paths_ofInserts inserts
        lists_iff := fun _ => lists_ofInserts_iff
        size := size_eq_ncard inserts
        read_ok := fun _ _ => read_ofInserts_eq_ok_iff
        read_error := fun _ _ => read_ofInserts_eq_error_iff }

end FileSet

end ModuleGraph
