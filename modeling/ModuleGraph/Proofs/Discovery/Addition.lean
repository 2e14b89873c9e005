import ModuleGraph.Proofs.Build.Outcome
import ModuleGraph.Proofs.Discovery.Files
import ModuleGraph.Proofs.Disk.Addition

/-!
# Files that do not matter

A file that no setting asks for makes no difference to a project, wherever it is put and whatever it
holds, unless it changes the rules that the user has for all projects. It is no ignore file, so
every directory has the rules that it had (`ofDirectory_eq_of_gains`), and what was there is judged
as before. The directories that are made for it are walked, but there is nothing else in them, so
the walk finds the files that it found (`Finds.gain`) and none but these and the new one
(`Finds.of_gains`), which has no recognized extension. A build then reads the files that it read,
and they hold what they held.

The rules of the user are in files of any name, which a configuration gives, and a configuration may
be the file that is put (`ofRoot_ne_of_gitconfig`).
-/

namespace ModuleGraph

open Text

namespace Discovery

/-- A file at `place` is neither a source file nor an ignore file. -/
structure Irrelevant (settings : Settings) (place : Location) : Prop where
  unrecognized : ∀ extension ∈ settings.extensions,
    place.path.extension? ≠ some (Utf8.encode extension)
  not_ignore : place.getLast? ≠ some (Utf8.encode ".ignore")
  not_gitignore : place.getLast? ≠ some (Utf8.encode ".gitignore")
  not_below_git : Utf8.encode ".git" ∉ place

theorem Irrelevant.isSource_eq_false {settings : Settings} {place : Location}
    (h : Irrelevant settings place) : isSource settings place = false := by
  rw [← Bool.not_eq_true, isSource_iff]
  rintro ⟨extension, hmem, heq⟩
  exact h.unrecognized extension hmem heq

end Discovery

variable {disk disk' : Disk} {place root file directory : Location} {content : List UInt8}
  {settings : Settings}

/-! ## The same rules -/

namespace IgnoreLayer

open Discovery

/-- A file other than the new one has the rules that it had. -/
theorem rulesAt_eq_of_gains (h : disk.Gains disk' place content) (hwell : disk.root.WellFormed)
    (hlinks : disk.root.IsLinkless) (hdirectory : ∀ name ∈ directory, FileName.IsProper name)
    {names : Location} {file : String} (hfile : Path.ofString file = Location.relative names)
    (hnames : ∀ name ∈ names, FileName.IsProper name) (hne : names ≠ [])
    (hother : directory ++ names ≠ place) :
    rulesAt disk' directory file = rulesAt disk directory file := by
  have hproper : ∀ name ∈ directory ++ names, FileName.IsProper name :=
    List.forall_mem_append.2 ⟨hdirectory, hnames⟩
  have hnil := List.append_ne_nil_of_right_ne_nil directory hne
  rw [rulesAt, rulesAt, hfile, Location.path_join hdirectory hnames hne]
  exact rulesOf_congr (h.toOption_readBytes_path_eq hwell hlinks hproper hnil hother)

theorem ofDirectory_eq_of_gains (h : disk.Gains disk' place content)
    (hwell : disk.root.WellFormed) (hlinks : disk.root.IsLinkless)
    (hplace : Irrelevant settings place)
    (hdirectory : ∀ name ∈ directory, FileName.IsProper name) :
    ofDirectory disk' directory = ofDirectory disk directory := by
  have hown : rulesAt disk' directory ".ignore" = rulesAt disk directory ".ignore" := by
    have hfile : Path.ofString ".ignore" = Location.relative [Utf8.encode ".ignore"] := rfl
    refine rulesAt_eq_of_gains h hwell hlinks hdirectory hfile (by decide +kernel)
      (List.cons_ne_nil _ _) ?_
    rintro rfl
    exact hplace.not_ignore List.getLast?_concat
  have hshared : rulesAt disk' directory ".gitignore" = rulesAt disk directory ".gitignore" := by
    have hfile : Path.ofString ".gitignore" = Location.relative [Utf8.encode ".gitignore"] := rfl
    refine rulesAt_eq_of_gains h hwell hlinks hdirectory hfile (by decide +kernel)
      (List.cons_ne_nil _ _) ?_
    rintro rfl
    exact hplace.not_gitignore List.getLast?_concat
  have hpersonal : rulesAt disk' directory ".git/info/exclude" =
      rulesAt disk directory ".git/info/exclude" := by
    have hfile : Path.ofString ".git/info/exclude" = Location.relative
        [Utf8.encode ".git", Utf8.encode "info", Utf8.encode "exclude"] := by decide +kernel
    refine rulesAt_eq_of_gains h hwell hlinks hdirectory hfile (by decide +kernel)
      (List.cons_ne_nil _ _) ?_
    rintro rfl
    exact hplace.not_below_git (List.mem_append_right _ List.mem_cons_self)
  rw [ofDirectory, ofDirectory, hown, hshared, hpersonal]

theorem above_eq_of_gains (h : disk.Gains disk' place content) (hwell : disk.root.WellFormed)
    (hlinks : disk.root.IsLinkless) (hplace : Irrelevant settings place)
    (hdirectory : ∀ name ∈ directory, FileName.IsProper name) :
    above disk' directory = above disk directory := by
  rw [above, above]
  refine List.map_congr_left fun depth _ => ?_
  refine ofDirectory_eq_of_gains h hwell hlinks hplace fun name hname => ?_
  exact hdirectory name (List.mem_of_mem_take hname)

end IgnoreLayer

namespace Discovery

variable {ignore : IgnoreFiles} {e e' : Entry} {excluded : List Glob}

theorem ignoreIn_eq_of_gains (ignore : IgnoreFiles) (h : disk.Gains disk' place content)
    (hwell : disk.root.WellFormed) (hlinks : disk.root.IsLinkless)
    (hplace : Irrelevant settings place)
    (hdirectory : ∀ name ∈ directory, FileName.IsProper name) :
    ignoreIn disk' settings ignore directory = ignoreIn disk settings ignore directory := by
  rw [ignoreIn, ignoreIn, IgnoreLayer.ofDirectory_eq_of_gains h hwell hlinks hplace hdirectory]

theorem ignoreAbove_eq_of_gains (h : disk.Gains disk' place content)
    (hwell : disk.root.WellFormed) (hlinks : disk.root.IsLinkless)
    (hplace : Irrelevant settings place)
    (huser : (UserIgnore.ofDisk disk').rules = (UserIgnore.ofDisk disk).rules)
    (hdirectory : ∀ name ∈ directory, FileName.IsProper name) (hdir : e'.isDir = e.isDir) :
    ignoreAbove disk' settings directory e' = ignoreAbove disk settings directory e := by
  have hsame : UserIgnore.ofDisk disk' = UserIgnore.ofDisk disk :=
    UserIgnore.ext h.working_eq huser
  rw [ignoreAbove, ignoreAbove, hdir, hsame,
    IgnoreLayer.above_eq_of_gains h hwell hlinks hplace hdirectory]

/-! ## The same files -/

/-- An entry is judged by its kind alone. -/
theorem isVisible_eq_of_isDir_eq (hdir : e'.isDir = e.isDir) :
    isVisible ignore directory e' = isVisible ignore directory e := by
  rw [isVisible, isVisible, hdir]

theorem isExcludedDir_eq_of_isDir_eq {name : FileName} (hdir : e'.isDir = e.isDir) :
    isExcludedDir settings name e' = isExcludedDir settings name e := by
  rw [isExcludedDir, isExcludedDir, hdir]

/-- A walk finds nothing but what is below the place it comes to. -/
theorem Finds.isPrefix (h : Finds disk settings file ignore directory e) : directory <+: file := by
  induction h with
  | file => exact List.prefix_rfl
  | entry _ _ _ _ ih => exact (List.prefix_append _ _).trans ih

/-- What was found is found after the file is put. -/
theorem Finds.gain (h : disk.Gains disk' place content) (hwell : disk.root.WellFormed)
    (hlinks : disk.root.IsLinkless) (hplace : Irrelevant settings place)
    (hfinds : Finds disk settings file ignore directory e)
    (hat : disk.root.at? directory = some e) (hat' : disk'.root.at? directory = some e') :
    Finds disk' settings file ignore directory e' := by
  induction hfinds generalizing e' with
  | @file ignore bytes =>
      have hne : file ≠ place := by
        rintro rfl
        rw [h.fresh] at hat
        cases hat
      cases hat'.symm.trans ((h.at?_file_iff hne).2 hat)
      exact .file
  | @entry ignore directory entries name inner hmem hvisible hentered _ ih =>
      have hinner : disk.root.at? (directory ++ [name]) = some inner := by
        refine Entry.at?_concat_eq_some_iff.2 ⟨entries, hat, ?_⟩
        exact (hwell.at? hat).1.lookup_eq_some_iff.2 hmem
      obtain ⟨inner', hinner', hdir⟩ := h.keeps _ _ hinner
      obtain ⟨entries', hentries', hlookup'⟩ := Entry.at?_concat_eq_some_iff.1 hinner'
      cases hat'.symm.trans hentries'
      have hmem' : (name, inner') ∈ entries' :=
        ((h.wellFormed hwell).at? hat').1.lookup_eq_some_iff.1 hlookup'
      have hignore := ignoreIn_eq_of_gains ignore h hwell hlinks hplace (hwell.at? hat).2
      refine .entry hmem' ?_ ?_ ?_
      · rw [hignore, isVisible_eq_of_isDir_eq hdir]
        exact hvisible
      · rw [isExcludedDir_eq_of_isDir_eq hdir]
        exact hentered
      · rw [hignore]
        exact ih hinner hinner'

/-- What is found after the file is put was found before, unless it is the new file. -/
theorem Finds.of_gains (h : disk.Gains disk' place content) (hwell : disk.root.WellFormed)
    (hlinks : disk.root.IsLinkless) (hplace : Irrelevant settings place) (hne : file ≠ place)
    (hfinds : Finds disk' settings file ignore directory e')
    (hat' : disk'.root.at? directory = some e') (hat : disk.root.at? directory = some e) :
    Finds disk settings file ignore directory e := by
  have hwell' := h.wellFormed hwell
  induction hfinds generalizing e with
  | @file ignore bytes =>
      cases hat.symm.trans ((h.at?_file_iff hne).1 hat')
      exact .file
  | @entry ignore directory entries' name inner' hmem' hvisible hentered hbelow ih =>
      have hinner' : disk'.root.at? (directory ++ [name]) = some inner' := by
        refine Entry.at?_concat_eq_some_iff.2 ⟨entries', hat', ?_⟩
        exact (hwell'.at? hat').1.lookup_eq_some_iff.2 hmem'
      cases hinner : disk.root.at? (directory ++ [name]) with
      | none =>
          -- the directory was made for the new file, so no file was below it
          obtain ⟨bytes, hfile'⟩ := hbelow.exists_at? hwell' hinner'
          have hfile := (h.at?_file_iff hne).1 hfile'
          obtain ⟨more, rfl⟩ := hbelow.isPrefix
          rw [Entry.at?_append, hinner] at hfile
          cases hfile
      | some inner =>
          obtain ⟨kept, hkept, hdir⟩ := h.keeps _ _ hinner
          cases hinner'.symm.trans hkept
          obtain ⟨entries, hentries, hlookup⟩ := Entry.at?_concat_eq_some_iff.1 hinner
          cases hat.symm.trans hentries
          have hmem : (name, inner) ∈ entries :=
            (hwell.at? hat).1.lookup_eq_some_iff.1 hlookup
          have hignore := ignoreIn_eq_of_gains ignore h hwell hlinks hplace (hwell.at? hat).2
          rw [hignore] at hvisible ih
          refine .entry hmem ?_ ?_ (ih hinner' hinner)
          · rw [← isVisible_eq_of_isDir_eq hdir]
            exact hvisible
          · rw [← isExcludedDir_eq_of_isDir_eq hdir]
            exact hentered

theorem isListed_iff_of_gains (h : disk.Gains disk' place content) (hwell : disk.root.WellFormed)
    (hlinks : disk.root.IsLinkless) (hplace : Irrelevant settings place)
    (huser : (UserIgnore.ofDisk disk').rules = (UserIgnore.ofDisk disk).rules)
    (hroot : disk.root.at? root = some e) :
    IsListed disk' settings excluded root file ↔ IsListed disk settings excluded root file := by
  obtain ⟨e', hroot', hdir⟩ := h.keeps root e hroot
  have habove := ignoreAbove_eq_of_gains h hwell hlinks hplace huser (hwell.at? hroot).2 hdir
  constructor
  · rintro ⟨⟨found', hat', hfinds⟩, hsource, hkept⟩
    cases hroot'.symm.trans hat'
    have hne : file ≠ place := by
      rintro rfl
      rw [hplace.isSource_eq_false] at hsource
      cases hsource
    rw [habove] at hfinds
    exact ⟨⟨e, hroot, hfinds.of_gains h hwell hlinks hplace hne hroot' hroot⟩, hsource, hkept⟩
  · rintro ⟨⟨found, hat, hfinds⟩, hsource, hkept⟩
    cases hroot.symm.trans hat
    rw [← habove] at hfinds
    exact ⟨⟨e', hroot', hfinds.gain h hwell hlinks hplace hroot hroot'⟩, hsource, hkept⟩

theorem ofRoot_eq_of_gains {p : Path} (h : disk.Gains disk' place content)
    (hwell : disk.root.WellFormed) (hlinks : disk.root.IsLinkless)
    (hplace : Irrelevant settings place)
    (huser : (UserIgnore.ofDisk disk').rules = (UserIgnore.ofDisk disk).rules)
    (hlocate : disk.locate false p = .ok root) (hroot : disk.root.at? root = some e) :
    ofRoot disk' p settings = ofRoot disk p settings := by
  have hlocate' := h.locate_eq_ok hlinks hlocate
  cases hfound : ofRoot disk p settings with
  | error failure =>
      rw [ofRoot_eq_error_iff, hlocate, ← hlocate'] at hfound
      exact ofRoot_eq_error_iff.2 hfound
  | ok discovery =>
      obtain ⟨hplace', excluded, hglobs, hsorted, hmem⟩ := ofRoot_eq_ok_iff.1 hfound
      have heq : discovery.root = root := Except.ok.inj (hplace'.symm.trans hlocate)
      refine ofRoot_eq_ok_iff.2 ⟨heq ▸ hlocate', excluded, hglobs, hsorted, fun file => ?_⟩
      rw [hmem, heq, isListed_iff_of_gains h hwell hlinks hplace huser hroot]

/-! ## The same texts -/

/-- A file that is listed reads after the file is put as it did before. -/
theorem read_eq_of_gains {p : Path} {discovery : Discovery} (h : disk.Gains disk' place content)
    (hwell : disk.root.WellFormed) (hfound : ofRoot disk p settings = .ok discovery)
    (hfile : file ∈ discovery.files) (hdir : disk.root.isDir = true) :
    disk'.read file.path = disk.read file.path := by
  obtain ⟨bytes, hbytes⟩ := exists_at?_of_mem_files hwell hfound hfile
  have hnil : file ≠ [] := by
    rintro rfl
    rw [Option.some.inj hbytes] at hdir
    cases hdir
  have hne : file ≠ place := by
    rintro rfl
    rw [h.fresh] at hbytes
    cases hbytes
  have hbytes' := (h.at?_file_iff hne).2 hbytes
  rw [Disk.read, Disk.read, Disk.readBytes_path hwell hbytes hnil,
    Disk.readBytes_path (h.wellFormed hwell) hbytes' hnil, h.opened_eq]

/-- In a tree without links, a file that is neither a source file nor an ignore file is put where
there was nothing, and the rules of the user are as before. Discovery below any root that is a
directory fails with the same error as before or lists the same files, and the build over them has
the same outcome. -/
theorem ofRoot_gains {p : Path} {entries : List (FileName × Entry)}
    (h : disk.Gains disk' place content) (hwell : disk.root.WellFormed)
    (hlinks : disk.root.IsLinkless) (hplace : Irrelevant settings place)
    (huser : (UserIgnore.ofDisk disk').rules = (UserIgnore.ofDisk disk).rules)
    (hlocate : disk.locate false p = .ok root) (hroot : disk.root.at? root = some (.dir entries)) :
    ofRoot disk' p settings = ofRoot disk p settings ∧
      ∀ discovery, ofRoot disk p settings = .ok discovery →
        build (discovery.source disk') settings = build (discovery.source disk) settings := by
  refine ⟨ofRoot_eq_of_gains h hwell hlinks hplace huser hlocate hroot, ?_⟩
  intro discovery hfound
  have hdir := Entry.isDir_of_at?_dir hroot
  show build { discovery.source disk with read := disk'.read } settings = _
  refine build_congr_read ?_ settings
  rintro path ⟨before, after, hpaths, -⟩
  have hlisted : path ∈ discovery.files.map Location.path := by
    change discovery.files.map Location.path = _ at hpaths
    rw [hpaths]
    exact List.mem_append_right _ List.mem_cons_self
  obtain ⟨file, hfile, rfl⟩ := List.mem_map.1 hlisted
  exact read_eq_of_gains h hwell hfound hfile hdir

/-- A note is put into a directory that is made for it and has a recognized extension, beside a file
of that name without the last letter. -/
theorem ofRoot_gains_of_note :
    let project (more : List (FileName × Entry)) : Entry := .dir
      ([(Utf8.encode ".gitignore", .file (Utf8.encode "dist\n*.t")),
        (Utf8.encode "a.ts", .file (Utf8.encode "import b from './b'")),
        (Utf8.encode "b.t", .file [])] ++ more)
    let note : Entry := .dir [(Utf8.encode "readme.md", .file (Utf8.encode "import a from './a'"))]
    let disk : Disk := { root := .dir [(Utf8.encode "p", project [])] }
    let disk' : Disk := { root := .dir [(Utf8.encode "p", project [(Utf8.encode "b.ts", note)])] }
    let root := Location.path [Utf8.encode "p"]
    ofRoot disk' root Settings.default = ofRoot disk root Settings.default ∧
      ∀ discovery, ofRoot disk root Settings.default = .ok discovery →
        build (discovery.source disk') Settings.default =
          build (discovery.source disk) Settings.default := by
  intro project note disk disk' root
  have hwell : disk.root.WellFormed := by decide +kernel
  have hlinks : disk.root.IsLinkless := Entry.isLinkless_of_holdsNoLink (by decide +kernel)
  have hgains : disk.Gains disk' [Utf8.encode "p", Utf8.encode "b.ts", Utf8.encode "readme.md"]
      (Utf8.encode "import a from './a'") :=
    ⟨by decide +kernel, rfl, rfl, rfl⟩
  have hplace : Irrelevant Settings.default
      [Utf8.encode "p", Utf8.encode "b.ts", Utf8.encode "readme.md"] :=
    ⟨by decide +kernel, by decide +kernel, by decide +kernel, by decide +kernel⟩
  have hlocate : disk.locate false root = .ok [Utf8.encode "p"] :=
    Disk.locate_path_of_dir hwell rfl (List.cons_ne_nil _ _) false
  exact ofRoot_gains hgains hwell hlinks hplace rfl hlocate rfl

/-- A configuration is put where the user had none, and names a file without rules. The file that
the user's rules ignored is listed then. -/
theorem ofRoot_ne_of_gitconfig :
    let home (more : List (FileName × Entry)) : Entry := .dir
      ((Utf8.encode ".config", .dir [(Utf8.encode "git", .dir
        [(Utf8.encode "ignore", .file (Utf8.encode "a.ts"))])]) :: more)
    let project : Entry := .dir [(Utf8.encode "a.ts", .file [])]
    let configuration := Utf8.encode "[core]\nexcludesFile = /none"
    let user : User := { home := some (Location.path [Utf8.encode "home"]) }
    let disk : Disk :=
      { root := .dir [(Utf8.encode "home", home []), (Utf8.encode "p", project)], user }
    let disk' : Disk :=
      { root := .dir
          [(Utf8.encode "home", home [(Utf8.encode ".gitconfig", .file configuration)]),
            (Utf8.encode "p", project)]
        user }
    let place := [Utf8.encode "home", Utf8.encode ".gitconfig"]
    let root := Location.path [Utf8.encode "p"]
    let settings : Settings := { respectGitignore := false }
    disk.root.WellFormed ∧ disk.root.IsLinkless ∧ disk.Gains disk' place configuration ∧
      Irrelevant settings place ∧ disk.locate false root = .ok [Utf8.encode "p"] ∧
      disk.root.at? [Utf8.encode "p"] = some project ∧
      ofRoot disk' root settings ≠ ofRoot disk root settings := by
  intro home project configuration user disk disk' place root settings
  have hwell : disk.root.WellFormed := by decide +kernel
  have hlinks : disk.root.IsLinkless := Entry.isLinkless_of_holdsNoLink (by decide +kernel)
  have hgains : disk.Gains disk' place configuration := ⟨by decide +kernel, rfl, rfl, rfl⟩
  have hplace : Irrelevant settings place :=
    ⟨by decide +kernel, by decide +kernel, by decide +kernel, by decide +kernel⟩
  have hroot : disk.locate false root = .ok [Utf8.encode "p"] :=
    Disk.locate_path_of_dir hwell rfl (List.cons_ne_nil _ _) false
  refine ⟨hwell, hlinks, hgains, hplace, hroot, rfl, fun hsame => ?_⟩
  have hhome : ∀ name ∈ [Utf8.encode "home"], FileName.IsProper name := by decide +kernel
  have hbefore : UserIgnore.ofDisk disk = ⟨[], IgnoreRule.ofContent (Utf8.encode "a.ts")⟩ := by
    have hfile : UserIgnore.file? disk = some (Location.path
        [Utf8.encode "home", Utf8.encode ".config", Utf8.encode "git", Utf8.encode "ignore"]) := by
      rw [UserIgnore.file?_of_home hhome hwell hlinks rfl]
      decide +kernel
    exact UserIgnore.ofDisk_of_file? hwell hlinks (by decide +kernel) (List.cons_ne_nil _ _) hfile
  have hwell' := hgains.wellFormed hwell
  have hafter : UserIgnore.ofDisk disk' = ⟨[], []⟩ := by
    have hlinks' := hgains.isLinkless hlinks
    have hfile : UserIgnore.file? disk' = some (Location.path [Utf8.encode "none"]) := by
      rw [UserIgnore.file?_of_home hhome hwell' hlinks' rfl]
      decide +kernel
    exact UserIgnore.ofDisk_of_file? hwell' hlinks' (by decide +kernel) (List.cons_ne_nil _ _) hfile
  obtain ⟨discovery, hfound⟩ := exists_ofRoot hroot settings rfl
  obtain ⟨hp, -⟩ := ofRoot_eq_ok_iff.1 hfound
  have hlisted : [Utf8.encode "p", Utf8.encode "a.ts"] ∈ discovery.files := by
    rw [mem_files_iff_of_off hwell' rfl (hsame.trans hfound), hafter,
      ← Except.ok.inj (hroot.symm.trans hp)]
    exact ⟨⟨by decide +kernel, ⟨[], rfl⟩, by decide +kernel, by decide +kernel,
      List.forall_mem_nil _⟩, letsThrough_of_rules_eq_nil rfl _ _ _⟩
  rw [mem_files_iff_of_off hwell rfl hfound, hbefore,
    ← Except.ok.inj (hroot.symm.trans hp)] at hlisted
  have hlets : letsThrough ⟨[], IgnoreRule.ofContent (Utf8.encode "a.ts")⟩ disk.root
      [Utf8.encode "p"] [Utf8.encode "a.ts"] = false := by decide +kernel
  exact Bool.false_ne_true (hlets.symm.trans hlisted.2)

end Discovery

end ModuleGraph
