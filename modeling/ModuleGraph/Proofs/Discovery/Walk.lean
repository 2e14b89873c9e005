import ModuleGraph.Proofs.Discovery.Order
import ModuleGraph.Proofs.Disk.Tree

/-!
# What a walk finds

`Finds` says which files a walk finds, without the order it finds them in: a walk that comes to a
regular file finds it, and one that comes to a directory finds what it finds at the entries that it
goes on to. The walk of `filesAt` finds these files and no others (`mem_filesAt`), and the files of
a project are those that are found and that neither their extension nor a glob keeps out
(`ofRoot_eq_ok_iff`).
-/

namespace ModuleGraph

namespace Discovery

/-- The walk that comes to an entry at a location, with the ignore files for it, finds `file`. -/
inductive Finds (disk : Disk) (settings : Settings) (file : Location) :
    IgnoreFiles → Location → Entry → Prop
  | file {ignore : IgnoreFiles} {content : List UInt8} :
      Finds disk settings file ignore file (.file content)
  | entry {ignore : IgnoreFiles} {place : Location} {entries : List (FileName × Entry)}
      {name : FileName} {e : Entry} : (name, e) ∈ entries →
      isVisible (ignoreIn disk settings ignore place) (place ++ [name]) e = true →
      isExcludedDir settings name e = false →
      Finds disk settings file (ignoreIn disk settings ignore place) (place ++ [name]) e →
      Finds disk settings file ignore place (.dir entries)

variable {disk : Disk} {settings : Settings} {file place : Location} {e : Entry}
  {ignore : IgnoreFiles}

/-! ## The walk -/

theorem mem_filesIn {entries : List (FileName × Entry)} :
    file ∈ filesIn disk settings ignore place entries ↔
      ∃ name e, (name, e) ∈ entries ∧ isVisible ignore (place ++ [name]) e = true ∧
        isExcludedDir settings name e = false ∧
        file ∈ filesAt disk settings ignore (place ++ [name]) e := by
  induction entries with
  | nil => simp [filesIn]
  | cons head rest ih =>
      obtain ⟨name, e⟩ := head
      have hhead : file ∈ (if isVisible ignore (place ++ [name]) e &&
            !isExcludedDir settings name e then
            filesAt disk settings ignore (place ++ [name]) e else []) ↔
          isVisible ignore (place ++ [name]) e = true ∧
            isExcludedDir settings name e = false ∧
            file ∈ filesAt disk settings ignore (place ++ [name]) e := by
        cases isVisible ignore (place ++ [name]) e <;> cases isExcludedDir settings name e <;> simp
      rw [filesIn, List.mem_append, ih, hhead]
      constructor
      · rintro (h | ⟨name', e', hmem, h⟩)
        · exact ⟨name, e, List.mem_cons_self, h⟩
        · exact ⟨name', e', List.mem_cons_of_mem _ hmem, h⟩
      · rintro ⟨name', e', hmem, h⟩
        rcases List.mem_cons.1 hmem with heq | hmem
        · cases heq
          exact Or.inl h
        · exact Or.inr ⟨name', e', hmem, h⟩

theorem mem_filesAt :
    file ∈ filesAt disk settings ignore place e ↔ Finds disk settings file ignore place e := by
  induction e using Entry.induct generalizing ignore place with
  | file content =>
      rw [filesAt, List.mem_singleton]
      constructor
      · rintro rfl
        exact .file
      · rintro ⟨⟩
        rfl
  | link target =>
      rw [filesAt]
      constructor
      · exact fun h => absurd h List.not_mem_nil
      · rintro ⟨⟩
  | dir entries ih =>
      rw [filesAt, mem_filesIn]
      constructor
      · rintro ⟨name, e, hmem, hvisible, hentered, hfile⟩
        exact .entry hmem hvisible hentered ((ih name e hmem).1 hfile)
      · rintro (_ | ⟨hmem, hvisible, hentered, hfinds⟩)
        exact ⟨_, _, hmem, hvisible, hentered, (ih _ _ hmem).2 hfinds⟩

/-! ## The files of a project -/

/-- Patterns are read one by one, all of them or none. -/
theorem globs_eq_ok_iff {patterns : List String} {read : List Glob} :
    globs patterns = .ok read ↔ patterns.map (Glob.read true false) = read.map .ok := by
  induction patterns generalizing read with
  | nil => cases read <;> simp [globs]
  | cons pattern rest ih =>
      rw [globs, List.map_cons]
      cases hread : Glob.read true false pattern with
      | error cause => cases read <;> simp
      | ok glob =>
          cases hrest : globs rest with
          | error cause => cases read <;> simp [Except.map, ← ih, hrest]
          | ok others => cases read <;> simp [Except.map, ← ih, hrest]

theorem mem_of_globs {patterns : List String} {read : List Glob} (h : globs patterns = .ok read)
    (glob : Glob) :
    glob ∈ read ↔ ∃ pattern ∈ patterns, Glob.read true false pattern = .ok glob := by
  have hok : (.ok glob : Except GlobError Glob) ∈ read.map .ok ↔ glob ∈ read := by simp
  rw [← hok, ← globs_eq_ok_iff.1 h, List.mem_map]

theorem exists_globs {patterns : List String}
    (h : ∀ pattern ∈ patterns, ∃ glob, Glob.read true false pattern = .ok glob) :
    ∃ read, globs patterns = .ok read := by
  induction patterns with
  | nil => exact ⟨[], rfl⟩
  | cons pattern rest ih =>
      obtain ⟨⟨glob, hglob⟩, hrest⟩ := List.forall_mem_cons.1 h
      obtain ⟨read, hread⟩ := ih hrest
      refine ⟨glob :: read, globs_eq_ok_iff.2 ?_⟩
      rw [List.map_cons, hglob, globs_eq_ok_iff.1 hread, List.map_cons]

/-- The file is found below `root`, and neither its extension nor a glob keeps it out. -/
structure IsListed (disk : Disk) (settings : Settings) (excluded : List Glob)
    (root file : Location) : Prop where
  found : ∃ e, disk.root.at? root = some e ∧
    Finds disk settings file (ignoreAbove disk settings root e) root e
  source : isSource settings file = true
  kept : isExcluded excluded root file = false

/-- The files that `ofRoot` puts in order. -/
theorem mem_filter_found {excluded : List Glob} {root : Location} :
    file ∈ (match disk.root.at? root with
        | none => []
        | some e => filesAt disk settings (ignoreAbove disk settings root e) root e).filter
          (fun file => isSource settings file && !isExcluded excluded root file) ↔
      IsListed disk settings excluded root file := by
  rw [List.mem_filter, Bool.and_eq_true, Bool.not_eq_true']
  constructor
  · rintro ⟨hfound, hsource, hkept⟩
    cases hat : disk.root.at? root with
    | none => simp [hat] at hfound
    | some e =>
        rw [hat] at hfound
        exact ⟨⟨e, hat, mem_filesAt.1 hfound⟩, hsource, hkept⟩
  · rintro ⟨⟨e, hat, hfinds⟩, hsource, hkept⟩
    rw [hat]
    exact ⟨mem_filesAt.2 hfinds, hsource, hkept⟩

/-- A discovery succeeds if the root exists and the patterns are globs, and it lists what is to be
listed, in order. -/
theorem ofRoot_eq_ok_iff {root : Path} {discovery : Discovery} :
    ofRoot disk root settings = .ok discovery ↔
      disk.locate false root = .ok discovery.root ∧
        ∃ excluded, globs settings.exclude = .ok excluded ∧
          discovery.files.Pairwise (· < ·) ∧
          ∀ file, file ∈ discovery.files ↔
            IsListed disk settings excluded discovery.root file := by
  obtain ⟨place, files⟩ := discovery
  rw [ofRoot]
  cases disk.locate false root with
  | error cause => simp
  | ok place' =>
      cases globs settings.exclude with
      | error cause => simp [Except.map]
      | ok excluded =>
          simp only [Except.map, Except.ok.injEq, Discovery.mk.injEq, exists_eq_left']
          refine and_congr_right ?_
          rintro rfl
          constructor
          · rintro rfl
            exact ⟨pairwise_inOrder _, fun file => mem_inOrder.trans mem_filter_found⟩
          · rintro ⟨hsorted, hmem⟩
            exact eq_of_pairwise_lt (pairwise_inOrder _) hsorted fun file =>
              mem_inOrder.trans (mem_filter_found.trans (hmem file).symm)

/-- What a discovery fails with is decided by where the root is and by the patterns. -/
theorem ofRoot_eq_error_iff {root : Path} {failure : DiscoveryError} :
    ofRoot disk root settings = .error failure ↔
      (∃ cause, disk.locate false root = .error cause ∧ failure = .invalidRoot root cause) ∨
        ∃ place, disk.locate false root = .ok place ∧ globs settings.exclude = .error failure := by
  rw [ofRoot]
  cases disk.locate false root with
  | error cause => simp [eq_comm]
  | ok place =>
      cases globs settings.exclude with
      | error cause => simp [Except.map]
      | ok excluded => simp [Except.map]

theorem exists_ofRoot {root : Path} {place : Location} {excluded : List Glob}
    (hroot : disk.locate false root = .ok place) (settings : Settings)
    (hglobs : globs settings.exclude = .ok excluded) :
    ∃ discovery, ofRoot disk root settings = .ok discovery := by
  rw [ofRoot, hroot, hglobs]
  exact ⟨_, rfl⟩

end Discovery

end ModuleGraph
