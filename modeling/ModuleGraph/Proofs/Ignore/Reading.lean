import ModuleGraph.Ignore.User
import ModuleGraph.Proofs.Disk.Linkless

/-!
# Rules and the files that they are read from

Ignore rules come from files, and only what is read of these matters: disks on which the same is
read have the same rules (`IgnoreLayer.rulesOf_congr`), and the same user, at work in the same
directory, has the same rules on both (`UserIgnore.ofDisk_congr`). Where there are no links, what is
read at the path of a location is what the location holds, so there the rules can be told from the
tree (`IgnoreLayer.rulesOf_path`, `UserIgnore.file?_eq`). Where only the home directory of a user is
known, the two configurations and the file that they leave the rules to are below it
(`UserIgnore.file?_of_home`).
-/

namespace ModuleGraph

open Text

variable {disk disk' : Disk} {file : Path} {place : Location}

namespace IgnoreLayer

theorem rulesOf_eq (disk : Disk) (file : Path) : rulesOf disk file =
    ((disk.readBytes file).toOption.map IgnoreRule.ofContent).getD [] := by
  rw [rulesOf]
  cases disk.readBytes file with
  | ok content => rfl
  | error cause => rfl

theorem rulesOf_congr (h : (disk.readBytes file).toOption = (disk'.readBytes file).toOption) :
    rulesOf disk file = rulesOf disk' file := by
  rw [rulesOf_eq, rulesOf_eq, h]

theorem rulesOf_path (hwell : disk.root.WellFormed) (hlinks : disk.root.IsLinkless)
    (hproper : ∀ name ∈ place, FileName.IsProper name) (hne : place ≠ []) :
    rulesOf disk place.path = ((disk.content? place).map IgnoreRule.ofContent).getD [] := by
  rw [rulesOf_eq, Disk.toOption_readBytes_path hwell hlinks hproper hne]

end IgnoreLayer

namespace UserIgnore

theorem named?_eq (disk : Disk) (configuration : Path) : named? disk configuration =
    ((disk.readBytes configuration).toOption.bind excludesFile?).map (expanded disk.user) := by
  rw [named?]
  cases disk.readBytes configuration with
  | ok content => rfl
  | error cause => rfl

theorem named?_path (hwell : disk.root.WellFormed) (hlinks : disk.root.IsLinkless)
    (hproper : ∀ name ∈ place, FileName.IsProper name) (hne : place ≠ []) :
    named? disk place.path =
      ((disk.content? place).bind excludesFile?).map (expanded disk.user) := by
  rw [named?_eq, Disk.toOption_readBytes_path hwell hlinks hproper hne]

/-- Where the configurations are at known places, the file of the rules can be told from the tree.
-/
theorem file?_eq {places : List Location} (hwell : disk.root.WellFormed)
    (hlinks : disk.root.IsLinkless)
    (hplaces : configurations disk.user = places.map Location.path)
    (hproper : ∀ place ∈ places, place ≠ [] ∧ ∀ name ∈ place, FileName.IsProper name) :
    file? disk = (places.findSome? fun place =>
        ((disk.content? place).bind excludesFile?).map (expanded disk.user)).or
      ((directory? disk.user).map (·.join (Path.ofString "git/ignore"))) := by
  have hnamed : (places.map Location.path).findSome? (named? disk) = places.findSome? fun place =>
      ((disk.content? place).bind excludesFile?).map (expanded disk.user) := by
    clear hplaces
    induction places with
    | nil => rfl
    | cons place rest ih =>
        obtain ⟨⟨hne, hnames⟩, hrest⟩ := List.forall_mem_cons.1 hproper
        rw [List.map_cons, List.findSome?_cons, List.findSome?_cons,
          named?_path hwell hlinks hnames hne, ih hrest]
  rw [file?, hplaces, hnamed]

section Home

variable {home : Location} (hproper : ∀ name ∈ home, FileName.IsProper name)

include hproper

theorem directory?_of_home : directory? { home := some home.path } =
    some (Location.path (home ++ [Utf8.encode ".config"])) := by
  have hconfig : Path.ofString ".config" = Location.relative [Utf8.encode ".config"] := by
    decide +kernel
  have hname : ∀ name ∈ [Utf8.encode ".config"], FileName.IsProper name := by decide +kernel
  rw [directory?, Option.none_or, Option.map_some, hconfig,
    Location.path_join hproper hname (List.cons_ne_nil _ _)]

/-- What is in a directory for configuration that is in the home directory. -/
theorem join_of_home {file : String} (name : FileName) (hname : name.IsProper)
    (hfile : Path.ofString file = Location.relative [Utf8.encode "git", name]) :
    (Location.path (home ++ [Utf8.encode ".config"])).join (Path.ofString file) =
      Location.path (home ++ [Utf8.encode ".config", Utf8.encode "git", name]) := by
  have hconfig : ∀ name ∈ home ++ [Utf8.encode ".config"], FileName.IsProper name :=
    List.forall_mem_append.2 ⟨hproper, by decide +kernel⟩
  have hgit : ∀ inner ∈ [Utf8.encode "git", name], FileName.IsProper inner :=
    List.forall_mem_cons.2 ⟨by decide +kernel, List.forall_mem_singleton.2 hname⟩
  rw [hfile, Location.path_join hconfig hgit (List.cons_ne_nil _ _), List.append_assoc]
  rfl

theorem configurations_of_home : configurations { home := some home.path } = List.map Location.path
    [home ++ [Utf8.encode ".gitconfig"],
      home ++ [Utf8.encode ".config", Utf8.encode "git", Utf8.encode "config"]] := by
  have hgitconfig : Path.ofString ".gitconfig" = Location.relative [Utf8.encode ".gitconfig"] := by
    decide +kernel
  have hname : ∀ name ∈ [Utf8.encode ".gitconfig"], FileName.IsProper name := by decide +kernel
  rw [configurations, directory?_of_home hproper, Option.map_some, Option.map_some, hgitconfig,
    Location.path_join hproper hname (List.cons_ne_nil _ _),
    join_of_home hproper (Utf8.encode "config") (by decide +kernel) (by decide +kernel)]
  rfl

/-- A user of whom only the home directory is known. -/
theorem file?_of_home (hwell : disk.root.WellFormed) (hlinks : disk.root.IsLinkless)
    (huser : disk.user = { home := some home.path }) :
    file? disk = ([home ++ [Utf8.encode ".gitconfig"],
        home ++ [Utf8.encode ".config", Utf8.encode "git", Utf8.encode "config"]].findSome?
          fun place => ((disk.content? place).bind excludesFile?).map (expanded disk.user)).or
      (some (Location.path
        (home ++ [Utf8.encode ".config", Utf8.encode "git", Utf8.encode "ignore"]))) := by
  have hconfigurations : configurations disk.user = _ := huser ▸ configurations_of_home hproper
  rw [file?_eq hwell hlinks hconfigurations, huser, directory?_of_home hproper, Option.map_some,
    join_of_home hproper (Utf8.encode "ignore") (by decide +kernel) (by decide +kernel)]
  have hplace : ∀ names : Location, names ≠ [] → (∀ name ∈ names, FileName.IsProper name) →
      home ++ names ≠ [] ∧ ∀ name ∈ home ++ names, FileName.IsProper name :=
    fun _ hne hnames =>
      ⟨List.append_ne_nil_of_right_ne_nil _ hne, List.forall_mem_append.2 ⟨hproper, hnames⟩⟩
  rw [List.forall_mem_cons, List.forall_mem_singleton]
  exact ⟨hplace _ (List.cons_ne_nil _ _) (by decide +kernel),
    hplace _ (List.cons_ne_nil _ _) (by decide +kernel)⟩

end Home

theorem ofDisk_of_file? (hwell : disk.root.WellFormed) (hlinks : disk.root.IsLinkless)
    (hproper : ∀ name ∈ place, FileName.IsProper name) (hne : place ≠ [])
    (hfile : file? disk = some place.path) : ofDisk disk =
      ⟨disk.working, ((disk.content? place).map IgnoreRule.ofContent).getD []⟩ := by
  rw [ofDisk, hfile, ← IgnoreLayer.rulesOf_path hwell hlinks hproper hne]

/-- The configurations of the user read the same, so they name the same file, and that file reads
the same. -/
theorem ofDisk_congr (hread : ∀ p, (disk.readBytes p).toOption = (disk'.readBytes p).toOption)
    (huser : disk.user = disk'.user) (hworking : disk.working = disk'.working) :
    ofDisk disk = ofDisk disk' := by
  have hnamed : named? disk = named? disk' := by
    funext configuration
    rw [named?_eq, named?_eq, hread, huser]
  have hfile : file? disk = file? disk' := by
    rw [file?, file?, hnamed, huser]
  rw [ofDisk, ofDisk, hfile, hworking]
  cases file? disk' with
  | none => rfl
  | some file => simp only [IgnoreLayer.rulesOf_congr (hread file)]

end UserIgnore

end ModuleGraph
