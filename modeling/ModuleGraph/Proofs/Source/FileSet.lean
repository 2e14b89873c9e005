import ModuleGraph.Source

/-!
# Files that are entered one after the other

A set of files has one entry for each path that was entered, whichever spellings of it were used.
Entering a path that is there changes no path and no text but the one of that path; entering a new
path adds it last. What is there stays there, so a path that was entered at any time is found ever
after (`lists_ofInserts`), and every path that is listed can be read (`exists_text`).
-/

namespace ModuleGraph.FileSet

/-- What becomes of no files when these are entered, the first of them first. -/
def ofInserts (inserts : List (Path × String)) : FileSet :=
  inserts.foldl (fun files file => files.insert file.1 file.2) empty

/-- Some spelling of `path` is listed. -/
def Lists (files : FileSet) (path : Path) : Prop :=
  ∃ known ∈ files.paths, known.same path = true

variable {files : FileSet} {path : Path}

/-! ## Entering a file -/

theorem paths_insert_of_lists (h : files.Lists path) (text : String) :
    (files.insert path text).paths = files.paths := by
  obtain ⟨entries⟩ := files
  unfold Lists at h
  unfold insert paths at *
  dsimp only at *
  induction entries with
  | nil =>
      obtain ⟨known, hmem, -⟩ := h
      cases hmem
  | cons entry rest ih =>
      obtain ⟨known, old⟩ := entry
      by_cases hk : known.same path = true
      · simp only [put, if_pos hk, List.map_cons]
      · simp only [List.map_cons, List.mem_cons, exists_eq_or_imp] at h
        simp only [put, if_neg hk, List.map_cons, ih (h.resolve_left hk)]

theorem paths_insert_of_new (h : ¬ files.Lists path) (text : String) :
    (files.insert path text).paths = files.paths ++ [path] := by
  obtain ⟨entries⟩ := files
  unfold Lists at h
  unfold insert paths at *
  dsimp only at *
  induction entries with
  | nil => rfl
  | cons entry rest ih =>
      obtain ⟨known, old⟩ := entry
      simp only [List.map_cons, List.mem_cons, exists_eq_or_imp, not_or] at h
      simp only [put, if_neg h.1, List.map_cons, ih h.2, List.cons_append]

/-- Another path reads as before. -/
theorem read_insert_of_other {other : Path} (h : ¬ other.same path = true) (text : String) :
    (files.insert path text).read other = files.read other := by
  have hfind : (put path text files.entries).find? (·.1.same other) =
      files.entries.find? (·.1.same other) := by
    induction files.entries with
    | nil =>
        have hno : ¬ path.same other = true := fun hsame => h (Path.same_symm hsame)
        simp [put, hno]
    | cons entry rest ih =>
        obtain ⟨known, old⟩ := entry
        by_cases hk : known.same path = true
        · have hno : ¬ known.same other = true := fun hsame =>
            h (Path.same_trans (Path.same_symm hsame) hk)
          simp [put, hk, hno]
        · simp only [put, if_neg hk, List.find?_cons, ih]
  simp only [read, insert, hfind]

/-- A spelling of the path reads what was entered. -/
theorem read_insert_of_same {other : Path} (h : path.same other = true) (text : String) :
    (files.insert path text).read other = .ok text := by
  have hfind : ∃ known, (put path text files.entries).find? (·.1.same other) =
      some (known, text) := by
    induction files.entries with
    | nil => exact ⟨path, by simp [put, h]⟩
    | cons entry rest ih =>
        obtain ⟨known, old⟩ := entry
        by_cases hk : known.same path = true
        · exact ⟨known, by simp [put, hk, Path.same_trans hk h]⟩
        · have hno : ¬ known.same other = true := fun hsame =>
            hk (Path.same_trans hsame (Path.same_symm h))
          obtain ⟨found, hfound⟩ := ih
          exact ⟨found, by simp [put, hk, hno, hfound]⟩
  obtain ⟨known, hknown⟩ := hfind
  simp only [read, insert, hknown]

/-- A path that is listed can be read. -/
theorem exists_text (h : files.Lists path) : ∃ text, files.read path = .ok text := by
  obtain ⟨known, hknown, hsame⟩ := h
  obtain ⟨entry, hentry, rfl⟩ := List.mem_map.1 hknown
  have hfound : (files.entries.find? (·.1.same path)).isSome = true :=
    List.find?_isSome.2 ⟨entry, hentry, hsame⟩
  obtain ⟨⟨_, text⟩, hfind⟩ := Option.isSome_iff_exists.1 hfound
  exact ⟨text, by simp only [read, hfind]⟩

/-! ## What is entered stays -/

theorem lists_insert_self (files : FileSet) (path : Path) (text : String) :
    (files.insert path text).Lists path := by
  by_cases h : files.Lists path
  · rwa [Lists, paths_insert_of_lists h]
  · rw [Lists, paths_insert_of_new h]
    exact ⟨path, List.mem_append_right _ List.mem_cons_self, Path.same_refl path⟩

theorem Lists.insert {known : Path} (h : files.Lists known) (path : Path) (text : String) :
    (files.insert path text).Lists known := by
  by_cases hp : files.Lists path
  · rwa [Lists, paths_insert_of_lists hp]
  · obtain ⟨spelled, hmem, hsame⟩ := h
    rw [Lists, paths_insert_of_new hp]
    exact ⟨spelled, List.mem_append_left _ hmem, hsame⟩

theorem Lists.foldl_insert {known : Path} (h : files.Lists known)
    (inserts : List (Path × String)) :
    (inserts.foldl (fun files file => files.insert file.1 file.2) files).Lists known := by
  induction inserts generalizing files with
  | nil => exact h
  | cons file rest ih => exact ih (h.insert file.1 file.2)

theorem lists_foldl_insert {file : Path × String} {inserts : List (Path × String)}
    (h : file ∈ inserts) (files : FileSet) :
    (inserts.foldl (fun files file => files.insert file.1 file.2) files).Lists file.1 := by
  induction inserts generalizing files with
  | nil => cases h
  | cons first rest ih =>
      rcases List.mem_cons.1 h with rfl | h
      · exact (lists_insert_self files _ _).foldl_insert rest
      · exact ih h _

/-- Every spelling of a path that was entered is one of a path that is listed. -/
theorem lists_ofInserts {inserts : List (Path × String)}
    (h : ∃ file ∈ inserts, file.1.same path = true) : (ofInserts inserts).Lists path := by
  obtain ⟨file, hfile, hsame⟩ := h
  obtain ⟨known, hknown, hsame'⟩ := lists_foldl_insert hfile empty
  exact ⟨known, hknown, Path.same_trans hsame' hsame⟩

theorem paths_ofInserts_eq_nil_iff {inserts : List (Path × String)} :
    (ofInserts inserts).paths = [] ↔ inserts = [] := by
  constructor
  · intro hnil
    cases inserts with
    | nil => rfl
    | cons file rest =>
        have hlists : (ofInserts (file :: rest)).Lists file.1 :=
          lists_foldl_insert List.mem_cons_self empty
        obtain ⟨known, hknown, -⟩ := hlists
        rw [hnil] at hknown
        cases hknown
  · rintro rfl
    rfl

end ModuleGraph.FileSet
