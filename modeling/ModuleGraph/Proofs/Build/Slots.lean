import ModuleGraph.Proofs.Build.Files

/-!
# The slots of a build

Each file of a project has a slot, which holds the edges of the file or the reason why it cannot
be read. What is gathered from the slots is decided by the first one that holds a failure, if
there is one (`gather_of_failure`), and is otherwise the edges of all files in the order of the
files (`Reads.gather`). One of the two is the case, whatever the files and however they read
(`texts_or_failure`).
-/

namespace ModuleGraph

namespace Project

variable {read : Path → Except FileError String}

/-- `text` is what is read of each of the files. -/
def Reads (read : Path → Except FileError String) (files : List (Path × FileId))
    (text : FileId → String) : Prop :=
  ∀ file ∈ files, read file.1 = .ok (text file.2)

theorem Reads.gather {files : List (Path × FileId)} {text : FileId → String}
    (h : Reads read files text) (project : Project) :
    Project.gather (files.map (project.slot read)) =
      .ok (files.flatMap fun file => project.edgesOf file.2 (text file.2)) := by
  induction files with
  | nil => rfl
  | cons file files ih =>
      have hslot : project.slot read file = .ok (project.edgesOf file.2 (text file.2)) := by
        simp only [slot, h file List.mem_cons_self]
      have hrest : Reads read files text := fun other hother =>
        h other (List.mem_cons_of_mem file hother)
      rw [List.map_cons, hslot, Project.gather, ih hrest]
      rfl

/-- The first slot that holds a failure decides, whatever the slots before it hold. -/
theorem gather_of_failure {front rest : List (Path × FileId)} {file : Path × FileId}
    {cause : FileError} (project : Project) (hfront : ∀ other ∈ front, ∃ text, read other.1 = .ok text)
    (hfile : read file.1 = .error cause) :
    gather ((front ++ file :: rest).map (project.slot read)) =
      .error (.unreadable file.1 cause) := by
  induction front with
  | nil =>
      have hslot : project.slot read file = .error (.unreadable file.1 cause) := by
        simp only [slot, hfile]
      rw [List.nil_append, List.map_cons, hslot, gather]
  | cons other front ih =>
      obtain ⟨text, htext⟩ := hfront other List.mem_cons_self
      have hslot : project.slot read other = .ok (project.edgesOf other.2 text) := by
        simp only [slot, htext]
      rw [List.cons_append, List.map_cons, hslot, gather,
        ih fun f hf => hfront f (List.mem_cons_of_mem other hf)]
      rfl

/-- Either all files can be read, or one of them is the first that cannot. -/
theorem texts_or_failure (read : Path → Except FileError String) (files : List (Path × FileId)) :
    (∀ file ∈ files, ∃ text, read file.1 = .ok text) ∨
    ∃ front file rest cause, files = front ++ file :: rest ∧ read file.1 = .error cause ∧
      ∀ other ∈ front, ∃ text, read other.1 = .ok text := by
  induction files with
  | nil => exact Or.inl fun file h => absurd h List.not_mem_nil
  | cons file files ih =>
      cases hfile : read file.1 with
      | error cause =>
          exact Or.inr ⟨[], file, files, cause, rfl, hfile, fun _ h => absurd h List.not_mem_nil⟩
      | ok text =>
          have hhead : ∀ other ∈ [file], ∃ text, read other.1 = .ok text := by
            intro other hother
            exact ⟨text, List.mem_singleton.1 hother ▸ hfile⟩
          rcases ih with hall | ⟨front, bad, rest, cause, rfl, hbad, hfront⟩
          · exact Or.inl (List.forall_mem_cons.2 ⟨⟨text, hfile⟩, hall⟩)
          · refine Or.inr ⟨file :: front, bad, rest, cause, rfl, hbad, ?_⟩
            exact List.forall_mem_cons.2 ⟨⟨text, hfile⟩, hfront⟩

end Project

/-! ## From the slots to the build -/

theorem build_of_no_paths {source : Source} (settings : Settings) (h : source.paths = []) :
    build source settings = .error .noFilesFound := by
  simp only [build, Project.ofPaths, h]
  rfl

theorem build_of_paths {source : Source} (settings : Settings) (h : source.paths ≠ []) :
    build source settings =
      (Project.gather ((Project.distinct ∅ source.paths).map
        ((Project.ofPaths source.paths settings.extensions).slot source.read))).map
        (Project.ofPaths source.paths settings.extensions).graph := by
  have hfiles : (Project.distinct ∅ source.paths).isEmpty = false := by
    simpa using mt Project.distinct_eq_nil_iff.1 h
  simp only [build, Project.ofPaths, hfiles]
  rfl

end ModuleGraph
