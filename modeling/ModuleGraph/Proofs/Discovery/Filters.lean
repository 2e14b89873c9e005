import ModuleGraph.Proofs.Discovery.Files

/-!
# Filters only take files away

Settings are narrower than others if they know no extension that the others do not know, and enter
no directory and keep no pattern out that those do not (`Settings.Narrows`). What a walk finds under
the narrower ones it finds under the wider ones as well: it is judged entry by entry, and each entry
by fewer names (`Finds.of_subset`). So the narrower list holds less, and since both are strictly
increasing it is the wider one with some files left out (`sublist_of_narrows`). A list of names,
extensions or patterns is only asked for what is in it, so settings that hold the same, in another
order or more than once, are narrower both ways.

The ignore files of a project are no filter in this sense, for they are asked before the rules of
the user, and may keep what those rules ignore. What is listed where they are obeyed is listed where
they are not unless the rules of the user ignore it (`filter_sublist_of_obeyed`), and that can
happen (`not_sublist_of_kept`).
-/

namespace ModuleGraph

open Text

/-- What `narrow` lets through, `wide` lets through. -/
structure Settings.Narrows (narrow wide : Settings) : Prop where
  extensions : narrow.extensions ⊆ wide.extensions
  excludeDirs : wide.excludeDirs ⊆ narrow.excludeDirs
  exclude : wide.exclude ⊆ narrow.exclude
  respectGitignore : narrow.respectGitignore = wide.respectGitignore

/-- The settings hold the same extensions, names and patterns, in some order and as often as may
be, and treat ignore files alike. -/
structure Settings.HoldsSame (settings settings' : Settings) : Prop where
  extensions : ∀ extension, extension ∈ settings.extensions ↔ extension ∈ settings'.extensions
  excludeDirs : ∀ name, name ∈ settings.excludeDirs ↔ name ∈ settings'.excludeDirs
  exclude : ∀ pattern, pattern ∈ settings.exclude ↔ pattern ∈ settings'.exclude
  respectGitignore : settings.respectGitignore = settings'.respectGitignore

theorem Settings.HoldsSame.symm {settings settings' : Settings} (h : settings.HoldsSame settings') :
    settings'.HoldsSame settings := by
  refine ⟨?_, ?_, ?_, h.respectGitignore.symm⟩
  · exact fun extension => (h.extensions extension).symm
  · exact fun name => (h.excludeDirs name).symm
  · exact fun pattern => (h.exclude pattern).symm

theorem Settings.HoldsSame.narrows {settings settings' : Settings}
    (h : settings.HoldsSame settings') : settings.Narrows settings' := by
  refine ⟨?_, ?_, ?_, ?_⟩
  · exact fun extension hmem => (h.extensions extension).1 hmem
  · exact fun name hmem => (h.excludeDirs name).2 hmem
  · exact fun pattern hmem => (h.exclude pattern).2 hmem
  · exact h.respectGitignore

namespace Discovery

/-- `pattern` is a glob, and it matches `path`. -/
def Matches (pattern : String) (path : Path) : Prop :=
  ∃ glob, Glob.read true false pattern = .ok glob ∧ glob.accepts path.bytes = true

variable {disk : Disk} {narrow wide settings settings' : Settings} {root file place : Location}
  {e : Entry} {ignore : IgnoreFiles} {layer : IgnoreLayer} {name : FileName}
  {excluded excluded' : List Glob}

/-! ## One entry, one walk -/

theorem isExcludedDir_of_subset (h : wide.excludeDirs ⊆ narrow.excludeDirs)
    (hnarrow : isExcludedDir narrow name e = false) : isExcludedDir wide name e = false := by
  rw [isExcludedDir_eq_false_iff] at hnarrow ⊢
  intro hdir excluded hmem
  exact hnarrow hdir excluded (h hmem)

/-- Under the same treatment of ignore files, the walk that enters more directories finds what the
other one finds. -/
theorem Finds.of_subset (hdirs : wide.excludeDirs ⊆ narrow.excludeDirs)
    (hrespect : narrow.respectGitignore = wide.respectGitignore)
    (h : Finds disk narrow file ignore place e) : Finds disk wide file ignore place e := by
  have hignore : ∀ ignore place, ignoreIn disk narrow ignore place =
      ignoreIn disk wide ignore place := by
    intro ignore place
    rw [ignoreIn, ignoreIn, hrespect]
  induction h with
  | file => exact .file
  | entry hmem hvisible hentered _ ih =>
      rw [hignore] at hvisible ih
      exact .entry hmem hvisible (isExcludedDir_of_subset hdirs hentered) ih

/-- A walk from the root of a project finds under the wider settings what it finds under the
narrower ones. -/
theorem Finds.widen (h : narrow.Narrows wide)
    (hfinds : Finds disk narrow file (ignoreAbove disk narrow root e) place e) :
    Finds disk wide file (ignoreAbove disk wide root e) place e := by
  have habove : ignoreAbove disk narrow root e = ignoreAbove disk wide root e := by
    rw [ignoreAbove, ignoreAbove, h.respectGitignore]
  rw [habove] at hfinds
  exact hfinds.of_subset h.excludeDirs h.respectGitignore

/-! ## What is listed -/

theorem isSource_of_subset (h : narrow.extensions ⊆ wide.extensions)
    (hnarrow : isSource narrow file = true) : isSource wide file = true := by
  obtain ⟨extension, hmem, heq⟩ := isSource_iff.1 hnarrow
  exact isSource_iff.2 ⟨extension, h hmem, heq⟩

theorem isExcluded_eq_false_iff_forall_not_matches (hglobs : globs settings.exclude = .ok excluded) :
    isExcluded excluded root file = false ↔
      ∀ pattern ∈ settings.exclude, ¬ Matches pattern (root.below file) := by
  rw [isExcluded_eq_false_iff hglobs]
  constructor
  · rintro h pattern hpattern ⟨glob, hglob, haccepts⟩
    rw [h pattern hpattern glob hglob] at haccepts
    cases haccepts
  · intro h pattern hpattern glob hglob
    rw [← Bool.not_eq_true]
    exact fun haccepts => h pattern hpattern ⟨glob, hglob, haccepts⟩

theorem IsListed.widen (h : narrow.Narrows wide) (hnarrow : globs narrow.exclude = .ok excluded)
    (hwide : globs wide.exclude = .ok excluded') (hlisted : IsListed disk narrow excluded root file) :
    IsListed disk wide excluded' root file := by
  obtain ⟨⟨e, hat, hfinds⟩, hsource, hkept⟩ := hlisted
  refine ⟨⟨e, hat, hfinds.widen h⟩, isSource_of_subset h.extensions hsource, ?_⟩
  rw [isExcluded_eq_false_iff_forall_not_matches hnarrow] at hkept
  rw [isExcluded_eq_false_iff_forall_not_matches hwide]
  intro pattern hpattern
  exact hkept pattern (h.exclude hpattern)

/-- A strictly increasing list that holds less is the other one with some files left out. -/
theorem sublist_of_pairwise_lt {files files' : List Location} (h : files.Pairwise (· < ·))
    (h' : files'.Pairwise (· < ·)) (hsub : files' ⊆ files) : files'.Sublist files := by
  have hsame : files' = files.filter (· ∈ files') := by
    refine eq_of_pairwise_lt h' (h.filter _) fun file => ?_
    rw [List.mem_filter, decide_eq_true_eq]
    exact ⟨fun hmem => ⟨hsub hmem, hmem⟩, fun hmem => hmem.2⟩
  rw [hsame]
  exact List.filter_sublist

/-- The narrower settings list a subsequence of what the wider ones list, below the same root. -/
theorem sublist_of_narrows {root : Path} {discovery discovery' : Discovery}
    (h : narrow.Narrows wide) (hwide : ofRoot disk root wide = .ok discovery)
    (hnarrow : ofRoot disk root narrow = .ok discovery') :
    discovery'.root = discovery.root ∧ discovery'.files.Sublist discovery.files := by
  obtain ⟨hplace, excluded, hglobs, hsorted, hmem⟩ := ofRoot_eq_ok_iff.1 hwide
  obtain ⟨hplace', excluded', hglobs', hsorted', hmem'⟩ := ofRoot_eq_ok_iff.1 hnarrow
  have hroot : discovery'.root = discovery.root := Except.ok.inj (hplace'.symm.trans hplace)
  refine ⟨hroot, sublist_of_pairwise_lt hsorted hsorted' ?_⟩
  intro file hfile
  rw [hmem]
  rw [hmem', hroot] at hfile
  exact hfile.widen h hglobs' hglobs

/-- What is listed where ignore files are obeyed, and not ignored by the rules of the user, is
listed where they are not obeyed. -/
theorem filter_sublist_of_obeyed {root : Path} {discovery discovery' : Discovery}
    (hwell : disk.root.WellFormed) (hfound : ofRoot disk root settings = .ok discovery)
    (hfound' : ofRoot disk root { settings with respectGitignore := true } = .ok discovery') :
    (discovery'.files.filter fun file => letsThrough (UserIgnore.ofDisk disk) disk.root
      discovery.root (file.drop discovery.root.length)).Sublist discovery.files := by
  cases hrespect : settings.respectGitignore with
  | true =>
      have hsame : { settings with respectGitignore := true } = settings := by rw [← hrespect]
      rw [hsame] at hfound'
      cases hfound.symm.trans hfound'
      exact List.filter_sublist
  | false =>
      obtain ⟨hplace, -, -, hsorted, -⟩ := ofRoot_eq_ok_iff.1 hfound
      obtain ⟨hplace', excluded, hglobs, hsorted', hmem⟩ := ofRoot_eq_ok_iff.1 hfound'
      have hroot : discovery'.root = discovery.root :=
        Except.ok.inj (hplace'.symm.trans hplace)
      refine sublist_of_pairwise_lt hsorted (hsorted'.filter _) fun file hfile => ?_
      obtain ⟨hlisted, hlets⟩ := List.mem_filter.1 hfile
      rw [hmem, hroot] at hlisted
      obtain ⟨hbelow, hregular, hentered, hrecognized, hkept⟩ := hlisted.isSourceFile hwell hglobs
      rw [mem_files_iff_of_off hwell hrespect hfound]
      exact ⟨⟨hbelow, hregular, hentered, hrecognized, hkept⟩, hlets⟩

/-- Settings that hold the same list the same. -/
theorem eq_of_holdsSame {root : Path} {discovery discovery' : Discovery}
    (h : settings.HoldsSame settings') (hfound : ofRoot disk root settings = .ok discovery)
    (hfound' : ofRoot disk root settings' = .ok discovery') : discovery' = discovery := by
  obtain ⟨hroot, hsub⟩ := sublist_of_narrows h.symm.narrows hfound hfound'
  obtain ⟨-, hsub'⟩ := sublist_of_narrows h.narrows hfound' hfound
  obtain ⟨place, files⟩ := discovery
  obtain ⟨place', files'⟩ := discovery'
  cases hroot
  cases hsub.antisymm hsub'
  rfl

/-- A further pattern keeps out the files that it matches, and no other file. -/
theorem mem_files_append_exclude {root : Path} {discovery discovery' : Discovery}
    {patterns : List String} (hfound : ofRoot disk root settings = .ok discovery)
    (hfound' : ofRoot disk root { settings with exclude := settings.exclude ++ patterns } =
      .ok discovery') (file : Location) :
    file ∈ discovery'.files ↔ file ∈ discovery.files ∧
      ∀ pattern ∈ patterns, ¬ Matches pattern (discovery.root.below file) := by
  obtain ⟨hplace, excluded, hglobs, -, hmem⟩ := ofRoot_eq_ok_iff.1 hfound
  obtain ⟨hplace', excluded', hglobs', -, hmem'⟩ := ofRoot_eq_ok_iff.1 hfound'
  have hroot : discovery'.root = discovery.root := Except.ok.inj (hplace'.symm.trans hplace)
  rw [hmem, hmem', hroot]
  constructor
  · rintro ⟨⟨e, hat, hfinds⟩, hsource, hkept⟩
    rw [isExcluded_eq_false_iff_forall_not_matches hglobs', List.forall_mem_append] at hkept
    refine ⟨⟨⟨e, hat, Finds.of_subset ?_ ?_ hfinds⟩, hsource, ?_⟩, hkept.2⟩
    · exact List.Subset.refl _
    · rfl
    · exact (isExcluded_eq_false_iff_forall_not_matches hglobs).2 hkept.1
  · rintro ⟨⟨⟨e, hat, hfinds⟩, hsource, hkept⟩, hnew⟩
    rw [isExcluded_eq_false_iff_forall_not_matches hglobs] at hkept
    refine ⟨⟨e, hat, Finds.of_subset ?_ ?_ hfinds⟩, hsource, ?_⟩
    · exact List.Subset.refl _
    · rfl
    · rw [isExcluded_eq_false_iff_forall_not_matches hglobs', List.forall_mem_append]
      exact ⟨hkept, hnew⟩

/-! ## Two lists of one project -/

/-- Two discoveries of one project, under settings that differ in one part. What is listed where
ignore files are obeyed, without what the rules of the user ignore, is a subsequence of what is
listed where they are not, and so is all of it if the user has no rules. Further names of
directories and fewer extensions each give a subsequence of the files; further patterns take out
exactly the files that one of them matches; and the order of extensions, names and patterns, or how
often they are given, makes no difference. -/
theorem ofRoot_filtered {root : Path} {discovery discovery' : Discovery}
    (hwell : disk.root.WellFormed) (hfound : ofRoot disk root settings = .ok discovery)
    (hfound' : ofRoot disk root settings' = .ok discovery') :
    (settings' = { settings with respectGitignore := true } →
      (discovery'.files.filter fun file => letsThrough (UserIgnore.ofDisk disk) disk.root
        discovery.root (file.drop discovery.root.length)).Sublist discovery.files ∧
      ((UserIgnore.ofDisk disk).rules = [] → discovery'.files.Sublist discovery.files)) ∧
    (∀ patterns, settings' = { settings with exclude := settings.exclude ++ patterns } →
      discovery'.files.Sublist discovery.files ∧
      ∀ file, file ∈ discovery'.files ↔ file ∈ discovery.files ∧
        ¬ ∃ pattern ∈ patterns, Matches pattern (discovery.root.below file)) ∧
    (∀ names, settings.excludeDirs ⊆ names → settings' = { settings with excludeDirs := names } →
      discovery'.files.Sublist discovery.files) ∧
    (∀ extensions, extensions ⊆ settings.extensions → settings' = { settings with extensions } →
      discovery'.files.Sublist discovery.files) ∧
    (settings.HoldsSame settings' → discovery' = discovery) := by
  refine ⟨?_, ?_, ?_, ?_, ?_⟩
  · rintro rfl
    have hsub := filter_sublist_of_obeyed hwell hfound hfound'
    refine ⟨hsub, fun huser => ?_⟩
    have hlets := letsThrough_of_rules_eq_nil huser disk.root discovery.root
    simpa only [hlets, List.filter_true] using hsub
  · rintro patterns rfl
    have h : Settings.Narrows { settings with exclude := settings.exclude ++ patterns } settings :=
      ⟨List.Subset.refl _, List.Subset.refl _, List.subset_append_left _ _, rfl⟩
    refine ⟨(sublist_of_narrows h hfound hfound').2, fun file => ?_⟩
    rw [mem_files_append_exclude hfound hfound']
    simp only [not_exists, not_and]
  · rintro names hnames rfl
    have h : Settings.Narrows { settings with excludeDirs := names } settings :=
      ⟨List.Subset.refl _, hnames, List.Subset.refl _, rfl⟩
    exact (sublist_of_narrows h hfound hfound').2
  · rintro extensions hextensions rfl
    have h : Settings.Narrows { settings with extensions } settings :=
      ⟨hextensions, List.Subset.refl _, List.Subset.refl _, rfl⟩
    exact (sublist_of_narrows h hfound hfound').2
  · exact fun h => eq_of_holdsSame h hfound hfound'

/-- A directory is ignored, but for one file in it, and another ignore file keeps that directory
after all. -/
theorem ofRoot_filtered_of_kept :
    let project : Entry := .dir
      [(Utf8.encode ".gitignore", .file (Utf8.encode "dist/*\n!dist/a.js")),
        (Utf8.encode ".ignore", .file (Utf8.encode "*.ts\n!dist")),
        (Utf8.encode "a.ts", .file []),
        (Utf8.encode "dist", .dir
          [(Utf8.encode "a.js", .file []), (Utf8.encode "b.js", .file [])])]
    let disk : Disk := { root := .dir [(Utf8.encode "p", project)] }
    let root := Location.path [Utf8.encode "p"]
    let settings : Settings := { respectGitignore := false }
    (UserIgnore.ofDisk disk).rules = [] ∧
      ∃ discovery discovery', ofRoot disk root settings = .ok discovery ∧
        ofRoot disk root { settings with respectGitignore := true } = .ok discovery' ∧
        discovery'.files.Sublist discovery.files := by
  intro project disk root settings
  have hwell : disk.root.WellFormed := by decide +kernel
  have hroot : disk.locate false root = .ok [Utf8.encode "p"] :=
    Disk.locate_path_of_dir hwell rfl (List.cons_ne_nil _ _) false
  have hglobs : globs settings.exclude = .ok [] := rfl
  obtain ⟨discovery, hfound⟩ := exists_ofRoot hroot settings hglobs
  obtain ⟨discovery', hfound'⟩ :=
    exists_ofRoot hroot { settings with respectGitignore := true } hglobs
  have hfiltered := (ofRoot_filtered hwell hfound hfound').1 rfl
  exact ⟨rfl, discovery, discovery', hfound, hfound', hfiltered.2 rfl⟩

/-- What the nearest `.ignore` keeps is visible, whatever other files say. -/
theorem isVisible_push_of_own
    (h : IgnoreRule.decide? layer.own (Location.below layer.base place) e.isDir = some .kept) :
    isVisible (ignore.push layer) place e = true := by
  have hnearest : IgnoreLayer.nearest? (·.own) (layer :: ignore.layers) place e.isDir =
      some .kept := by
    rw [IgnoreLayer.nearest?, List.findSome?_cons, h]
  rw [isVisible, IgnoreFiles.verdict?, IgnoreFiles.push, IgnoreLayer.verdict?, hnearest]
  rfl

/-- The user ignores a file that the project keeps. It is listed where the ignore files of the
project are obeyed, and not where they are not. -/
theorem not_sublist_of_kept :
    let disk : Disk :=
      { root := .dir
          [(Utf8.encode "home", .dir
              [(Utf8.encode ".config", .dir [(Utf8.encode "git", .dir
                [(Utf8.encode "ignore", .file (Utf8.encode "a.ts"))])])]),
            (Utf8.encode "p", .dir
              [(Utf8.encode ".ignore", .file (Utf8.encode "!a.ts")),
                (Utf8.encode "a.ts", .file [])])]
        user := { home := some (Location.path [Utf8.encode "home"]) } }
    let root := Location.path [Utf8.encode "p"]
    let settings : Settings := { respectGitignore := false }
    ∃ discovery discovery', ofRoot disk root settings = .ok discovery ∧
      ofRoot disk root { settings with respectGitignore := true } = .ok discovery' ∧
      ¬ discovery'.files.Sublist discovery.files := by
  intro disk root settings
  have hwell : disk.root.WellFormed := by decide +kernel
  have hlinks : disk.root.IsLinkless := Entry.isLinkless_of_holdsNoLink (by decide +kernel)
  have hroot : disk.locate false root = .ok [Utf8.encode "p"] :=
    Disk.locate_path_of_dir hwell rfl (List.cons_ne_nil _ _) false
  have huser : UserIgnore.ofDisk disk = ⟨[], IgnoreRule.ofContent (Utf8.encode "a.ts")⟩ := by
    have hfile : UserIgnore.file? disk = some (Location.path
        [Utf8.encode "home", Utf8.encode ".config", Utf8.encode "git", Utf8.encode "ignore"]) := by
      have hhome : ∀ name ∈ [Utf8.encode "home"], FileName.IsProper name := by decide +kernel
      rw [UserIgnore.file?_of_home hhome hwell hlinks rfl]
      decide +kernel
    exact UserIgnore.ofDisk_of_file? hwell hlinks (by decide +kernel) (List.cons_ne_nil _ _) hfile
  have hrules : IgnoreLayer.rulesAt disk [Utf8.encode "p"] ".ignore" =
      IgnoreRule.ofContent (Utf8.encode "!a.ts") := by
    have hnames : ∀ name ∈ [Utf8.encode "p", Utf8.encode ".ignore"], FileName.IsProper name := by
      decide +kernel
    exact IgnoreLayer.rulesOf_path hwell hlinks hnames (List.cons_ne_nil _ _)
  have hglobs : globs settings.exclude = .ok [] := rfl
  obtain ⟨discovery, hfound⟩ := exists_ofRoot hroot settings hglobs
  obtain ⟨discovery', hfound'⟩ :=
    exists_ofRoot hroot { settings with respectGitignore := true } hglobs
  refine ⟨discovery, discovery', hfound, hfound', fun hsub => ?_⟩
  obtain ⟨hplace, -⟩ := ofRoot_eq_ok_iff.1 hfound
  obtain ⟨hplace', excluded, hglobs', -, hmem⟩ := ofRoot_eq_ok_iff.1 hfound'
  cases hglobs.symm.trans hglobs'
  have hlisted : IsListed disk { settings with respectGitignore := true } [] [Utf8.encode "p"]
      [Utf8.encode "p", Utf8.encode "a.ts"] := by
    refine ⟨⟨_, rfl, .entry (List.mem_cons_of_mem _ List.mem_cons_self) ?_ rfl .file⟩,
      by decide +kernel, rfl⟩
    refine isVisible_push_of_own ?_
    rw [IgnoreLayer.ofDirectory, hrules]
    decide +kernel
  have hfile := hsub.subset ((hmem [Utf8.encode "p", Utf8.encode "a.ts"]).2
    (Except.ok.inj (hroot.symm.trans hplace') ▸ hlisted))
  rw [mem_files_iff_of_off hwell rfl hfound, huser,
    ← Except.ok.inj (hroot.symm.trans hplace)] at hfile
  have hlets : letsThrough ⟨[], IgnoreRule.ofContent (Utf8.encode "a.ts")⟩ disk.root
      [Utf8.encode "p"] [Utf8.encode "a.ts"] = false := by decide +kernel
  exact Bool.false_ne_true (hlets.symm.trans hfile.2)

end Discovery

end ModuleGraph
