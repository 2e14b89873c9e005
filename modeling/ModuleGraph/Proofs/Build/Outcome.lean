import ModuleGraph.Proofs.Build.Slots

/-!
# Which outcome a build has

A build over no paths finds no files. Over some paths it fails at the first file that cannot be
read under the first of its paths, if there is such a file, and names that path and the cause;
otherwise it gives a graph. The three cases exclude each other and leave nothing out
(`build_cases`), so each of the outcomes has exactly one of them behind it.

A path whose file was listed before it is never read. It can be taken from the list, or made
unreadable, and the outcome stays the same.

A machine that has to start workers adds one outcome, which comes after the first: it gives the
graph of the build if it can start as many as the settings ask for (`buildOn_eq_ok_iff`).
-/

namespace ModuleGraph

open Project

/-- Every file can be read under the first of its paths. -/
def Readable (source : Source) : Prop :=
  ∀ path, FirstListed source.paths path → ∃ text, source.read path = .ok text

/-- `path` is the first of its file, it cannot be read because of `cause`, and every file that is
listed before it can be read. -/
def FirstUnreadable (source : Source) (path : Path) (cause : FileError) : Prop :=
  ∃ before after, source.paths = before ++ path :: after ∧
    FileId.ofPath path ∉ before.map FileId.ofPath ∧ source.read path = .error cause ∧
    Readable { source with paths := before }

theorem readable_iff {source : Source} :
    Readable source ↔ ∀ file ∈ distinct ∅ source.paths, ∃ text, source.read file.1 = .ok text := by
  constructor
  · rintro h ⟨path, id⟩ hfile
    exact h path (mem_distinct_iff.1 hfile).1
  · intro h path hpath
    exact h (path, FileId.ofPath path) (mem_distinct_iff.2 ⟨hpath, rfl⟩)

/-! ## What each case leads to -/

theorem build_of_unreadable {source : Source} (settings : Settings) {path : Path}
    {cause : FileError} (h : FirstUnreadable source path cause) :
    build source settings = .error (.unreadable path cause) := by
  obtain ⟨before, after, hpaths, hfirst, hread, hbefore⟩ := h
  have hne : source.paths ≠ [] := by
    rw [hpaths]
    exact List.append_ne_nil_of_right_ne_nil before (List.cons_ne_nil _ _)
  obtain ⟨rest, hfiles⟩ := distinct_of_first after hfirst
  rw [build_of_paths settings hne, hpaths, hfiles,
    gather_of_failure _ (readable_iff.1 hbefore) hread]
  rfl

/-- The texts of readable files, one for each identifier. -/
theorem Readable.exists_reads {source : Source} (h : Readable source) :
    ∃ text, Reads source.read (distinct ∅ source.paths) text := by
  have htext : ∀ id, ∃ t, ∀ file ∈ distinct ∅ source.paths, file.2 = id →
      source.read file.1 = .ok t := by
    intro id
    by_cases hid : ∃ file ∈ distinct ∅ source.paths, file.2 = id
    · obtain ⟨⟨path, _⟩, hfile, rfl⟩ := hid
      obtain ⟨hpath, hid⟩ := mem_distinct_iff.1 hfile
      obtain ⟨t, ht⟩ := h path hpath
      refine ⟨t, ?_⟩
      rintro ⟨path', id'⟩ hfile' rfl
      obtain ⟨hpath', hid'⟩ := mem_distinct_iff.1 hfile'
      rwa [hpath'.unique hpath (hid'.trans hid.symm)]
    · exact ⟨"", fun file hfile heq => absurd ⟨file, hfile, heq⟩ hid⟩
  obtain ⟨text, htext⟩ := Classical.skolem.1 htext
  exact ⟨text, fun file hfile => htext file.2 file hfile rfl⟩

theorem build_of_readable {source : Source} (settings : Settings) (hne : source.paths ≠ [])
    (h : Readable source) : ∃ graph, build source settings = .ok graph := by
  obtain ⟨text, htext⟩ := h.exists_reads
  rw [build_of_paths settings hne, htext.gather]
  exact ⟨_, rfl⟩

/-! ## One of the cases is the case -/

theorem build_cases (source : Source) :
    source.paths = [] ∨ (∃ path cause, FirstUnreadable source path cause) ∨
      (source.paths ≠ [] ∧ Readable source) := by
  by_cases hne : source.paths = []
  · exact Or.inl hne
  rcases texts_or_failure source.read (distinct ∅ source.paths) with hall | hfail
  · exact Or.inr (Or.inr ⟨hne, readable_iff.2 hall⟩)
  · obtain ⟨front, ⟨path, id⟩, rest, cause, hfiles, hread, hfront⟩ := hfail
    obtain ⟨before, after, hpaths, hid, -, hfirst, hbefore⟩ := distinct_eq_append hfiles
    refine Or.inr (Or.inl ⟨path, cause, before, after, hpaths, hid ▸ hfirst, hread, ?_⟩)
    exact readable_iff.2 (hbefore ▸ hfront)

theorem build_eq_noFilesFound_iff {source : Source} {settings : Settings} :
    build source settings = .error .noFilesFound ↔ source.paths = [] := by
  constructor
  · intro h
    rcases build_cases source with hnil | ⟨path, cause, hbad⟩ | ⟨hne, hok⟩
    · exact hnil
    · rw [build_of_unreadable settings hbad] at h
      cases h
    · obtain ⟨graph, hgraph⟩ := build_of_readable settings hne hok
      rw [hgraph] at h
      cases h
  · exact build_of_no_paths settings

theorem build_eq_unreadable_iff {source : Source} {settings : Settings} {path : Path}
    {cause : FileError} :
    build source settings = .error (.unreadable path cause) ↔
      FirstUnreadable source path cause := by
  constructor
  · intro h
    rcases build_cases source with hnil | ⟨path', cause', hbad⟩ | ⟨hne, hok⟩
    · rw [build_of_no_paths settings hnil] at h
      cases h
    · rw [build_of_unreadable settings hbad] at h
      cases h
      exact hbad
    · obtain ⟨graph, hgraph⟩ := build_of_readable settings hne hok
      rw [hgraph] at h
      cases h
  · exact build_of_unreadable settings

theorem exists_build_eq_ok_iff {source : Source} {settings : Settings} :
    (∃ graph, build source settings = .ok graph) ↔ source.paths ≠ [] ∧ Readable source := by
  constructor
  · rintro ⟨graph, h⟩
    rcases build_cases source with hnil | ⟨path, cause, hbad⟩ | hok
    · rw [build_of_no_paths settings hnil] at h
      cases h
    · rw [build_of_unreadable settings hbad] at h
      cases h
    · exact hok
  · rintro ⟨hne, hok⟩
    exact build_of_readable settings hne hok

/-! ## On a machine that starts workers -/

section

-- A stage of a run gives the failures of what it calls a name of its own.

variable {α ε ε' : Type}

@[simp]
theorem mapError_ok (named : ε → ε') (a : α) :
    (Except.ok a : Except ε α).mapError named = .ok a :=
  rfl

@[simp]
theorem mapError_error (named : ε → ε') (e : ε) :
    (Except.error e : Except ε α).mapError named = .error (named e) :=
  rfl

end

/-- As many workers as the settings ask for can be started. -/
def Starts (refusal? : Nat → Option String) (settings : Settings) : Prop :=
  ∀ threads, settings.threads = some threads → refusal? threads = none

variable {refusal? : Nat → Option String}

theorem bind_refusal_eq_none_iff {settings : Settings} :
    settings.threads.bind refusal? = none ↔ Starts refusal? settings := by
  rw [Starts]
  cases settings.threads with
  | none => simp
  | some threads => simp

theorem buildOn_of_no_paths {source : Source} (settings : Settings) (h : source.paths = []) :
    buildOn refusal? source settings = .error (.failed .noFilesFound) := by
  simp only [buildOn, Project.ofPaths, h]
  rfl

theorem buildOn_of_paths {source : Source} (settings : Settings) (h : source.paths ≠ []) :
    buildOn refusal? source settings = match settings.threads.bind refusal? with
      | some cause => .error (.noWorkers cause)
      | none => (build source settings).mapError .failed := by
  have hfiles : (Project.distinct ∅ source.paths).isEmpty = false := by
    simpa using mt Project.distinct_eq_nil_iff.1 h
  simp only [buildOn, Project.ofPaths, hfiles]
  rfl

theorem buildOn_eq_ok_iff {source : Source} {settings : Settings} {graph : Graph} :
    buildOn refusal? source settings = .ok graph ↔
      Starts refusal? settings ∧ build source settings = .ok graph := by
  rw [← bind_refusal_eq_none_iff]
  by_cases hne : source.paths = []
  · rw [buildOn_of_no_paths settings hne, build_of_no_paths settings hne]
    simp
  · rw [buildOn_of_paths settings hne]
    cases settings.threads.bind refusal? with
    | some cause => simp
    | none => cases build source settings <;> simp

/-- Whether there are files is looked at before any worker is started. -/
theorem buildOn_eq_noFilesFound_iff {source : Source} {settings : Settings} :
    buildOn refusal? source settings = .error (.failed .noFilesFound) ↔ source.paths = [] := by
  by_cases hne : source.paths = []
  · exact iff_of_true (buildOn_of_no_paths settings hne) hne
  · refine iff_of_false ?_ hne
    rw [buildOn_of_paths settings hne]
    cases settings.threads.bind refusal? with
    | some cause => simp
    | none =>
        have hfound : build source settings ≠ .error .noFilesFound :=
          mt build_eq_noFilesFound_iff.1 hne
        cases hbuild : build source settings with
        | ok graph => simp
        | error e =>
            simp only [mapError_error, Except.error.injEq, BuildFailure.failed.injEq]
            rintro rfl
            exact hfound hbuild

/-! ## Paths that are never read -/

theorem build_of_repeated {before after : List Path} {path : Path}
    (h : FileId.ofPath path ∈ before.map FileId.ofPath) (read : Path → Except FileError String)
    (settings : Settings) :
    build ⟨before ++ after, read⟩ settings = build ⟨before ++ path :: after, read⟩ settings := by
  have hproject : Project.ofPaths (before ++ path :: after) settings.extensions =
      Project.ofPaths (before ++ after) settings.extensions := by
    simp only [Project.ofPaths, distinct_of_repeated after h]
  simp only [build, hproject]

theorem build_congr_read {source : Source} {read : Path → Except FileError String}
    (h : ∀ path, FirstListed source.paths path → read path = source.read path)
    (settings : Settings) : build { source with read } settings = build source settings := by
  have hslots : ∀ project : Project,
      (distinct ∅ source.paths).map (project.slot read) =
        (distinct ∅ source.paths).map (project.slot source.read) := by
    intro project
    refine List.map_congr_left ?_
    rintro ⟨path, id⟩ hfile
    simp only [slot, h path (mem_distinct_iff.1 hfile).1]
  by_cases hne : source.paths = []
  · rw [build_of_no_paths settings hne]
    exact build_of_no_paths settings hne
  · rw [build_of_paths settings hne, ← hslots]
    exact build_of_paths settings hne

/-- A build finds no files exactly if no path is listed. It fails to read a file exactly if some
file cannot be read under the first of its paths, and then it names the earliest such path and why
it cannot be read. It gives a graph in all other cases. A path whose file was listed before it has
no part in this: it can be left out, and it can be unreadable. -/
theorem build_outcome (source : Source) (settings : Settings) :
    (build source settings = .error .noFilesFound ↔ source.paths = []) ∧
    ((∃ path cause, build source settings = .error (.unreadable path cause)) ↔
      ∃ path cause, FirstListed source.paths path ∧ source.read path = .error cause) ∧
    (∀ path cause, build source settings = .error (.unreadable path cause) ↔
      FirstUnreadable source path cause) ∧
    ((∃ graph, build source settings = .ok graph) ↔ source.paths ≠ [] ∧ Readable source) ∧
    (∀ before path after, source.paths = before ++ path :: after →
      FileId.ofPath path ∈ before.map FileId.ofPath →
      build { source with paths := before ++ after } settings = build source settings) ∧
    ∀ read : Path → Except FileError String,
      (∀ path, FirstListed source.paths path → read path = source.read path) →
      build { source with read } settings = build source settings := by
  refine ⟨build_eq_noFilesFound_iff, ?_, fun _ _ => build_eq_unreadable_iff,
    exists_build_eq_ok_iff, ?_, fun _ h => build_congr_read h settings⟩
  · constructor
    · rintro ⟨path, cause, h⟩
      obtain ⟨before, after, hpaths, hfirst, hread, -⟩ := build_eq_unreadable_iff.1 h
      exact ⟨path, cause, ⟨before, after, hpaths, hfirst⟩, hread⟩
    · rintro ⟨path, cause, hpath, hread⟩
      rcases build_cases source with hnil | ⟨path', cause', hbad⟩ | ⟨hne, hok⟩
      · obtain ⟨before, after, hpaths, -⟩ := hpath
        rw [hnil] at hpaths
        cases before <;> cases hpaths
      · exact ⟨path', cause', build_of_unreadable settings hbad⟩
      · obtain ⟨text, htext⟩ := hok path hpath
        rw [hread] at htext
        cases htext
  · intro before path after hpaths hrepeated
    obtain ⟨paths, read⟩ := source
    cases hpaths
    exact build_of_repeated hrepeated read settings

/-- A file that is listed again under another spelling, which cannot be read: there is a graph,
and it is the one of the first spelling alone, and of a disk on which the second can be read. -/
theorem build_outcome_respelled :
    let read : Path → Except FileError String := fun path =>
      if path = Path.ofString "a.ts" then .ok "" else .error .permissionDenied
    let source : Source := { paths := [Path.ofString "a.ts", Path.ofString "./a.ts"], read }
    (∃ graph, build source Settings.default = .ok graph) ∧
    build { source with paths := [Path.ofString "a.ts"] } Settings.default =
      build source Settings.default ∧
    build { source with read := fun _ => .ok "" } Settings.default =
      build source Settings.default := by
  intro read source
  have hrepeated : FileId.ofPath (Path.ofString "./a.ts") ∈
      [Path.ofString "a.ts"].map FileId.ofPath := by decide +kernel
  have honly : ∀ path, FirstListed source.paths path → path = Path.ofString "a.ts" := by
    rintro path ⟨before, after, hpaths, hfirst⟩
    cases before with
    | nil =>
        cases hpaths
        rfl
    | cons first before =>
        cases before with
        | nil =>
            cases hpaths
            exact absurd hrepeated hfirst
        | cons second before => cases before <;> cases hpaths
  have hok : read (Path.ofString "a.ts") = .ok "" := by simp only [read, if_true]
  obtain ⟨-, -, -, hgraph, hdrop, hread⟩ := build_outcome source Settings.default
  refine ⟨hgraph.2 ⟨List.cons_ne_nil _ _, ?_⟩, ?_, hread _ ?_⟩
  · intro path hpath
    rw [honly path hpath]
    exact ⟨"", hok⟩
  · exact hdrop [Path.ofString "a.ts"] (Path.ofString "./a.ts") [] rfl hrepeated
  · intro path hpath
    rw [honly path hpath]
    exact hok.symm

end ModuleGraph
