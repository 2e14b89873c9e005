import ModuleGraph.Proofs.Discovery.Walk
import ModuleGraph.Proofs.Ignore.Reading

/-!
# The files of a project

Whatever ignore files there are, a walk finds only regular files that are reached through
directories it enters (`Finds.exists_names`). Where the ignore files of directories are not obeyed,
it finds all of them that the rules of the user let through (`finds_iff_of_off`). So the files of a
project can then be told without a walk: they are the regular files below the root that no directory
on the way, no missing extension and no glob keeps out (`IsSourceFile`), without those that the
user's rules ignore. In either case what a discovery lists is in the tree, and its paths come in
their order.
-/

namespace ModuleGraph

open Text

namespace Discovery

/-- None of `names` but the last is the name of a directory that is not entered. -/
def Entered (settings : Settings) (names : List FileName) : Prop :=
  ∀ name ∈ names.dropLast, ∀ excluded ∈ settings.excludeDirs, Utf8.encode excluded ≠ name

instance (settings : Settings) (names : List FileName) : Decidable (Entered settings names) :=
  inferInstanceAs (Decidable (∀ name ∈ names.dropLast, _))

/-- `file` is a source file of the project in the directory `root`. -/
structure IsSourceFile (disk : Disk) (settings : Settings) (root file : Location) : Prop where
  below : root <+: file
  regular : ∃ content, disk.root.at? file = some (.file content)
  /-- No directory strictly between the root and the file has an excluded name. -/
  entered : Entered settings (file.drop root.length)
  recognized : ∃ extension ∈ settings.extensions,
    file.path.extension? = some (Utf8.encode extension)
  kept : ∀ pattern ∈ settings.exclude, ∀ glob, Glob.read true false pattern = .ok glob →
    glob.accepts (root.below file).bytes = false

/-- The rules of a user ignore none of the directories that `names` lead through from `place`, nor
what they lead to. -/
def letsThrough (user : UserIgnore) (tree : Entry) (place : Location) : List FileName → Bool
  | [] => true
  | name :: rest =>
    ((tree.at? (place ++ [name])).all fun e =>
      user.verdict? (place ++ [name]) e.isDir != some .ignored) &&
    letsThrough user tree (place ++ [name]) rest

variable {disk : Disk} {settings : Settings} {file place root : Location} {e : Entry}
  {ignore : IgnoreFiles} {user : UserIgnore}

/-! ## Walks without the ignore files of directories -/

theorem isExcludedDir_eq_false_iff {name : FileName} :
    isExcludedDir settings name e = false ↔
      (e.isDir = true → ∀ excluded ∈ settings.excludeDirs, Utf8.encode excluded ≠ name) := by
  rw [isExcludedDir]
  cases e.isDir <;> simp

/-- On the way to a file, the first name counts if there is another, that is, if what is under it
is a directory. -/
theorem entered_cons_iff {name : FileName} {rest : List FileName} {content : List UInt8}
    (hat : e.at? rest = some (.file content)) :
    Entered settings (name :: rest) ↔
      isExcludedDir settings name e = false ∧ Entered settings rest := by
  rw [isExcludedDir_eq_false_iff]
  cases rest with
  | nil =>
      cases hat
      simp [Entered, Entry.isDir]
  | cons next rest =>
      have hdir : e.isDir = true := by
        cases e with
        | dir _ => rfl
        | file _ => cases hat
        | link _ => cases hat
      rw [Entered, List.dropLast_cons_cons, List.forall_mem_cons, forall_prop_of_true hdir]
      exact Iff.rfl

theorem letsThrough_of_rules_eq_nil (h : user.rules = []) (tree : Entry) (place : Location)
    (names : List FileName) : letsThrough user tree place names = true := by
  have hnone : ∀ place isDir, user.verdict? place isDir = none := by
    intro place isDir
    rw [UserIgnore.verdict?, h]
    rfl
  induction names generalizing place with
  | nil => rfl
  | cons name rest ih =>
      rw [letsThrough, ih, Bool.and_true]
      simp only [hnone]
      cases tree.at? (place ++ [name]) <;> rfl

theorem letsThrough_cons {tree : Entry} {name : FileName} {rest : List FileName}
    (hat : tree.at? (place ++ [name]) = some e) :
    letsThrough user tree place (name :: rest) = true ↔
      isVisible ⟨[], user⟩ (place ++ [name]) e = true ∧
        letsThrough user tree (place ++ [name]) rest = true := by
  rw [letsThrough, hat, Option.all_some, Bool.and_eq_true]
  exact Iff.rfl

theorem ignoreIn_of_off (hoff : settings.respectGitignore = false) :
    ignoreIn disk settings ignore place = ignore := by
  rw [ignoreIn, hoff]
  rfl

/-- Where the ignore files of directories are not obeyed, a walk finds the regular files that are
reached through directories it enters, and that the rules of the user let through. -/
theorem finds_iff_of_off (hoff : settings.respectGitignore = false) (hwell : disk.root.WellFormed)
    (hat : disk.root.at? place = some e) :
    Finds disk settings file ⟨[], user⟩ place e ↔
      ∃ names content, file = place ++ names ∧ e.at? names = some (.file content) ∧
        Entered settings names ∧ letsThrough user disk.root place names = true := by
  constructor
  · intro h
    generalize hignore : (⟨[], user⟩ : IgnoreFiles) = ignore at h
    induction h with
    | @file ignore content =>
        exact ⟨[], content, (List.append_nil _).symm, rfl, by simp [Entered], rfl⟩
    | @entry ignore place entries name e hmem hvisible hentered _ ih =>
        have hlist := (hwell.at? hat).1
        have hinner : disk.root.at? (place ++ [name]) = some e :=
          Entry.at?_concat_eq_some_iff.2 ⟨entries, hat, hlist.lookup_eq_some_iff.2 hmem⟩
        rw [ignoreIn_of_off hoff] at hvisible ih
        obtain ⟨names, content, hfile, hcontent, hnames, hlets⟩ := ih hinner hignore
        refine ⟨name :: names, content, ?_, ?_, ?_, ?_⟩
        · rw [hfile, List.append_assoc, List.singleton_append]
        · exact (Entry.at?_cons_eq_some_iff hlist).2 ⟨e, hmem, hcontent⟩
        · exact (entered_cons_iff hcontent).2 ⟨hentered, hnames⟩
        · exact (letsThrough_cons hinner).2 ⟨hignore ▸ hvisible, hlets⟩
  · rintro ⟨names, content, rfl, hcontent, hnames, hlets⟩
    induction names generalizing e place with
    | nil =>
        cases hcontent
        rw [List.append_nil]
        exact .file
    | cons name rest ih =>
        cases e with
        | file _ => cases hcontent
        | link _ => cases hcontent
        | dir entries =>
            have hlist := (hwell.at? hat).1
            obtain ⟨inner, hmem, hrest⟩ := (Entry.at?_cons_eq_some_iff hlist).1 hcontent
            have hinner : disk.root.at? (place ++ [name]) = some inner :=
              Entry.at?_concat_eq_some_iff.2 ⟨entries, hat, hlist.lookup_eq_some_iff.2 hmem⟩
            obtain ⟨hentered, hbelow⟩ := (entered_cons_iff hrest).1 hnames
            obtain ⟨hvisible, hlets⟩ := (letsThrough_cons hinner).1 hlets
            have hfinds := ih hinner hrest hbelow hlets
            rw [List.append_assoc, List.singleton_append] at hfinds
            refine .entry hmem ?_ hentered ?_
            · rw [ignoreIn_of_off hoff]
              exact hvisible
            · rw [ignoreIn_of_off hoff]
              exact hfinds

/-! ## Walks with any ignore files -/

/-- What a walk finds, it finds as well where there is nothing to be obeyed. -/
theorem Finds.unfiltered (h : Finds disk settings file ignore place e) :
    Finds disk { settings with respectGitignore := false } file ⟨[], [], []⟩ place e := by
  induction h with
  | file => exact .file
  | entry hmem _ hentered _ ih =>
      refine .entry hmem ?_ hentered ?_
      · rw [ignoreIn_of_off rfl]
        rfl
      · rw [ignoreIn_of_off rfl]
        exact ih

/-- What a walk finds is a regular file that is reached through directories it enters. -/
theorem Finds.exists_names (hwell : disk.root.WellFormed) (hat : disk.root.at? place = some e)
    (h : Finds disk settings file ignore place e) :
    ∃ names content, file = place ++ names ∧ disk.root.at? file = some (.file content) ∧
      Entered settings names := by
  obtain ⟨names, content, rfl, hnames, hentered, -⟩ :=
    (finds_iff_of_off rfl hwell hat).1 h.unfiltered
  refine ⟨names, content, rfl, ?_, hentered⟩
  rw [Entry.at?_append, hat, Option.bind_some, hnames]

theorem Finds.exists_at? (hwell : disk.root.WellFormed) (hat : disk.root.at? place = some e)
    (h : Finds disk settings file ignore place e) :
    ∃ content, disk.root.at? file = some (.file content) := by
  obtain ⟨-, content, -, hcontent, -⟩ := h.exists_names hwell hat
  exact ⟨content, hcontent⟩

theorem exists_at?_of_mem_files {root : Path} {discovery : Discovery}
    (hwell : disk.root.WellFormed) (h : ofRoot disk root settings = .ok discovery)
    (hfile : file ∈ discovery.files) : ∃ content, disk.root.at? file = some (.file content) := by
  obtain ⟨-, excluded, -, -, hmem⟩ := ofRoot_eq_ok_iff.1 h
  obtain ⟨⟨e, hat, hfinds⟩, -, -⟩ := (hmem file).1 hfile
  exact hfinds.exists_at? hwell hat

/-! ## The order of the files -/

theorem nodup_of_precedes {paths : List Path} (h : paths.Pairwise Path.Precedes) :
    paths.Nodup := by
  have hne : paths.Pairwise (· ≠ ·) := by
    refine h.imp ?_
    rintro p _ hlt rfl
    exact Path.not_precedes_of_same p.same_refl hlt
  exact hne

/-- The paths of a discovery are strictly increasing. -/
theorem pairwise_paths {root : Path} {discovery : Discovery} (hwell : disk.root.WellFormed)
    (h : ofRoot disk root settings = .ok discovery) :
    (discovery.source disk).paths.Pairwise Path.Precedes := by
  obtain ⟨-, -, -, hsorted, -⟩ := ofRoot_eq_ok_iff.1 h
  have hproper : ∀ file ∈ discovery.files, ∀ name ∈ file, FileName.IsProper name := by
    intro file hfile
    obtain ⟨content, hcontent⟩ := exists_at?_of_mem_files hwell h hfile
    exact (hwell.at? hcontent).2
  rw [source, List.pairwise_map]
  exact hsorted.imp_of_mem fun ha hb hlt =>
    Location.precedes_path (hproper _ ha) (hproper _ hb) hlt

/-! ## Exactly the source files -/

theorem isSource_iff : isSource settings file = true ↔
    ∃ extension ∈ settings.extensions, file.path.extension? = some (Utf8.encode extension) := by
  rw [isSource]
  cases file.path.extension? with
  | none => simp
  | some bytes => simp [eq_comm (a := bytes)]

theorem isExcluded_eq_false_iff {excluded : List Glob} {root : Location}
    (h : globs settings.exclude = .ok excluded) :
    isExcluded excluded root file = false ↔
      ∀ pattern ∈ settings.exclude, ∀ glob, Glob.read true false pattern = .ok glob →
        glob.accepts (root.below file).bytes = false := by
  rw [isExcluded, List.any_eq_false]
  simp only [mem_of_globs h, Bool.not_eq_true]
  exact ⟨fun h pattern hpattern glob hglob => h glob ⟨pattern, hpattern, hglob⟩,
    fun h glob ⟨pattern, hpattern, hglob⟩ => h pattern hpattern glob hglob⟩

/-- Whatever ignore files there are, only source files are listed. -/
theorem IsListed.isSourceFile {excluded : List Glob} (hwell : disk.root.WellFormed)
    (hglobs : globs settings.exclude = .ok excluded)
    (h : IsListed disk settings excluded root file) : IsSourceFile disk settings root file := by
  obtain ⟨⟨e, hat, hfinds⟩, hsource, hkept⟩ := h
  obtain ⟨names, content, rfl, hcontent, hentered⟩ := hfinds.exists_names hwell hat
  refine ⟨List.prefix_append _ _, ⟨content, hcontent⟩, ?_, isSource_iff.1 hsource,
    (isExcluded_eq_false_iff hglobs).1 hkept⟩
  rwa [List.drop_left]

/-- Where the ignore files of directories are not obeyed, all source files are listed that the rules
of the user let through. -/
theorem isListed_iff_of_off {excluded : List Glob} (hwell : disk.root.WellFormed)
    (hoff : settings.respectGitignore = false) (hglobs : globs settings.exclude = .ok excluded) :
    IsListed disk settings excluded root file ↔ IsSourceFile disk settings root file ∧
      letsThrough (UserIgnore.ofDisk disk) disk.root root (file.drop root.length) = true := by
  have habove : ∀ e, ignoreAbove disk settings root e = ⟨[], UserIgnore.ofDisk disk⟩ := by
    intro e
    rw [ignoreAbove, hoff]
    rfl
  constructor
  · intro h
    refine ⟨h.isSourceFile hwell hglobs, ?_⟩
    obtain ⟨e, hat, hfinds⟩ := h.found
    rw [habove, finds_iff_of_off hoff hwell hat] at hfinds
    obtain ⟨names, -, rfl, -, -, hlets⟩ := hfinds
    rwa [List.drop_left]
  · rintro ⟨⟨⟨names, rfl⟩, ⟨content, hcontent⟩, hentered, hrecognized, hkept⟩, hlets⟩
    rw [Entry.at?_append, Option.bind_eq_some_iff] at hcontent
    obtain ⟨e, hat, hnames⟩ := hcontent
    rw [List.drop_left] at hentered hlets
    refine ⟨⟨e, hat, ?_⟩, isSource_iff.2 hrecognized, (isExcluded_eq_false_iff hglobs).2 hkept⟩
    rw [habove, finds_iff_of_off hoff hwell hat]
    exact ⟨names, content, rfl, hnames, hentered, hlets⟩

theorem mem_files_iff_of_off {root : Path} {discovery : Discovery} (hwell : disk.root.WellFormed)
    (hoff : settings.respectGitignore = false) (h : ofRoot disk root settings = .ok discovery) :
    file ∈ discovery.files ↔ IsSourceFile disk settings discovery.root file ∧
      letsThrough (UserIgnore.ofDisk disk) disk.root discovery.root
        (file.drop discovery.root.length) = true := by
  obtain ⟨-, excluded, hglobs, -, hmem⟩ := ofRoot_eq_ok_iff.1 h
  rw [hmem, isListed_iff_of_off hwell hoff hglobs]

/-- Where the root exists, the patterns are globs, ignore files are not obeyed and the user has no
rules, a discovery lists exactly the source files, each once and in the order of their paths. -/
theorem exists_ofRoot_sourceFiles {root : Path} (hwell : disk.root.WellFormed)
    (hroot : disk.locate false root = .ok place)
    (hpatterns : ∀ pattern ∈ settings.exclude, ∃ glob, Glob.read true false pattern = .ok glob)
    (hoff : settings.respectGitignore = false) (huser : (UserIgnore.ofDisk disk).rules = []) :
    ∃ discovery, ofRoot disk root settings = .ok discovery ∧
      (discovery.source disk).paths.Pairwise Path.Precedes ∧
      (discovery.source disk).paths.Nodup ∧
      ∀ path, path ∈ (discovery.source disk).paths ↔
        ∃ file, IsSourceFile disk settings place file ∧ file.path = path := by
  obtain ⟨excluded, hglobs⟩ := exists_globs hpatterns
  obtain ⟨discovery, hok⟩ := exists_ofRoot hroot settings hglobs
  obtain ⟨hplace, -⟩ := ofRoot_eq_ok_iff.1 hok
  cases hroot.symm.trans hplace
  have hsorted := pairwise_paths hwell hok
  refine ⟨discovery, hok, hsorted, nodup_of_precedes hsorted, ?_⟩
  intro path
  have hlets := letsThrough_of_rules_eq_nil huser disk.root discovery.root
  simp only [source, List.mem_map, mem_files_iff_of_off hwell hoff hok, hlets, and_true]

/-- The root has the name of a directory that is not entered, and so has a directory below it. A
glob keeps a file out, and a link leads to another. -/
theorem exists_ofRoot_sourceFiles_of_excluded_root :
    let project : Entry := .dir
      [(Utf8.encode "main.js", .file []),
        (Utf8.encode "index.ts", .link (Path.ofString "main.js")),
        (Utf8.encode "src", .dir
          [(Utf8.encode "app.ts", .file []), (Utf8.encode "app.test.ts", .file []),
            (Utf8.encode "node_modules", .dir [(Utf8.encode "lib.ts", .file [])])])]
    let disk : Disk := { root := .dir [(Utf8.encode "node_modules", project)] }
    let settings : Settings := { exclude := ["**/*.test.ts"], respectGitignore := false }
    ∃ discovery, ofRoot disk (Path.ofString "/node_modules") settings = .ok discovery ∧
      (discovery.source disk).paths.Pairwise Path.Precedes ∧
      (discovery.source disk).paths.Nodup ∧
      ∀ path, path ∈ (discovery.source disk).paths ↔
        ∃ file, IsSourceFile disk settings [Utf8.encode "node_modules"] file ∧
          file.path = path := by
  intro project disk settings
  have hwell : disk.root.WellFormed := by decide +kernel
  have hpath : Path.ofString "/node_modules" = Location.path [Utf8.encode "node_modules"] := by
    decide +kernel
  have hroot : disk.locate false (Path.ofString "/node_modules") =
      .ok [Utf8.encode "node_modules"] := by
    rw [hpath]
    exact Disk.locate_path_of_dir hwell rfl (List.cons_ne_nil _ _) false
  have hglob : (Glob.read true false "**/*.test.ts").isOk = true := by decide +kernel
  have hpatterns : ∀ pattern ∈ settings.exclude,
      ∃ glob, Glob.read true false pattern = .ok glob := by
    intro pattern hpattern
    cases List.mem_singleton.1 hpattern
    cases hread : Glob.read true false "**/*.test.ts" with
    | ok glob => exact ⟨glob, rfl⟩
    | error cause =>
        rw [hread] at hglob
        cases hglob
  exact exists_ofRoot_sourceFiles hwell hroot hpatterns rfl rfl

end Discovery

end ModuleGraph
