import ModuleGraph.Disk
import ModuleGraph.Settings
import ModuleGraph.Toml.Document

/-!
# Settings files

A project may hold its settings in a TOML file at its root. Every key is optional, keys that are
not known are passed over, and a key with a value of the wrong kind makes the whole file invalid.
-/

namespace ModuleGraph

/-- Why settings cannot be had from a file. -/
inductive SettingsError.Cause where
  | unreadable (cause : FileError)
  /-- The text is not TOML, or a value is of the wrong kind. -/
  | malformed
  deriving DecidableEq

/-- A settings file that cannot be used. -/
structure SettingsError where
  path : Path
  cause : SettingsError.Cause
  deriving DecidableEq

def SettingsError.Cause.message : SettingsError.Cause → String
  | .unreadable cause => cause.message
  | .malformed => "TOML parse error\n"

def SettingsError.message (e : SettingsError) : String :=
  "invalid configuration in " ++ e.path.display ++ ": " ++ e.cause.message

namespace Settings

/-- The name of the settings file at the root of a project. -/
def fileName : Path :=
  Path.ofString "import-graph.toml"

/-- The value of a key, read by `read`, or `default` if there is none. -/
def part? {α : Type} (entries : Toml.Entries) (key : String) (read : Toml → Option α)
    (default : α) : Option α :=
  match entries.lookup key with
  | none => some default
  | some v => read v

def ofToml? (entries : Toml.Entries) : Option Settings := do
  let extensions ← part? entries "extensions" Toml.strings? default.extensions
  let excludeDirs ← part? entries "exclude_dirs" Toml.strings? default.excludeDirs
  let exclude ← part? entries "exclude" Toml.strings? default.exclude
  let threads ← part? entries "threads" (fun v => (Toml.nat? v).map some) default.threads
  let respectGitignore ← part? entries "respect_gitignore" Toml.boolean? default.respectGitignore
  return ofWritten { extensions, excludeDirs, exclude, threads, respectGitignore }

def ofText? (text : String) : Option Settings :=
  (Toml.read? text).bind ofToml?

def ofFile (disk : Disk) (path : Path) : Except SettingsError Settings :=
  match disk.read path with
  | .error cause => .error ⟨path, .unreadable cause⟩
  | .ok text => match ofText? text with
    | some settings => .ok settings
    | none => .error ⟨path, .malformed⟩

/-- The settings of the project at `root`; the default ones if it has no settings file. -/
def ofRoot (disk : Disk) (root : Path) : Except SettingsError Settings :=
  let path := root.join fileName
  if disk.contains path then ofFile disk path else .ok default

end Settings

end ModuleGraph
