/-!
# Settings

What a project may decide about its graph, with a default for each part. Settings come from a file
or from elsewhere; what is asked for on a command line is laid over them.
-/

namespace ModuleGraph

/-- The settings of discovery, resolution and the build. -/
structure Settings where
  /-- The recognized extensions without their dot, most preferred first. -/
  extensions : List String := ["ts", "js"]
  /-- The names of directories that are not entered. -/
  excludeDirs : List String := ["node_modules"]
  /-- Globs for files, relative to the root, that are passed over. -/
  exclude : List String := []
  /-- How many workers read files; no answer depends on it. -/
  threads : Option Nat := none
  /-- Whether ignore files are obeyed. -/
  respectGitignore : Bool := true
  deriving DecidableEq

/-- What is asked for on top of the settings. -/
structure Overrides where
  /-- Extensions that take the place of the settings' own, if there are any. -/
  extensions : List String := []
  /-- Further globs. -/
  exclude : List String := []
  threads : Option Nat := none
  /-- Whether ignore files are to be passed over. -/
  noGitignore : Bool := false
  deriving DecidableEq

namespace Settings

/-- The settings without any file. -/
def default : Settings := {}

/-- An extension without the dots it may be written with. -/
def withoutDots (extension : String) : String :=
  String.ofList (extension.toList.dropWhile (· == '.'))

/-- The place of an extension in the order of preference. -/
def rank? (settings : Settings) (extension : String) : Option Nat :=
  settings.extensions.findIdx? (· == extension)

/-- The settings as a file gives them: dots before its extensions do not count. -/
def ofWritten (settings : Settings) : Settings :=
  { settings with extensions := settings.extensions.map withoutDots }

/-- The settings with what is asked for on top of them. -/
def override (settings : Settings) (asked : Overrides) : Settings where
  extensions :=
    if asked.extensions.isEmpty then settings.extensions else asked.extensions.map withoutDots
  excludeDirs := settings.excludeDirs
  exclude := settings.exclude ++ asked.exclude
  threads := asked.threads.or settings.threads
  respectGitignore := settings.respectGitignore && !asked.noGitignore

/-- No extension starts with a dot once its dots are taken off. -/
theorem head?_withoutDots (extension : String) :
    (withoutDots extension).toList.head? ≠ some '.' := by
  unfold withoutDots
  rw [String.toList_ofList]
  intro h
  have := List.head?_dropWhile_not (· == '.') extension.toList
  rw [h] at this
  simp at this

end Settings

end ModuleGraph
