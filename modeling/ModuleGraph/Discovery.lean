import ModuleGraph.Build
import ModuleGraph.Ignore.User
import ModuleGraph.Settings

/-!
# Discovering source files

The source files of a project are the regular files below its root that have a recognized
extension. Directories with an excluded name are not entered, what the ignore files say is to be
ignored is passed over with all that is below it, and so are files that match an exclude glob.
Links below the root are not followed. The files come in the order of their paths, name by name,
whatever order the directories list them in.

The ignore files are those of the project, if they are to be obeyed, and in any case the one that
the user has for all projects. Every directory on the way is taken to be one that can be listed; a
directory that cannot would be passed over with a warning.
-/

namespace ModuleGraph

open Text

/-- Why the files of a project cannot be listed. -/
inductive DiscoveryError where
  | invalidRoot (path : Path) (cause : FileError)
  | invalidPattern (pattern : String) (cause : GlobError)
  deriving DecidableEq

namespace DiscoveryError

def message : DiscoveryError → String
  | .invalidRoot path _ => "invalid project root " ++ path.display
  | .invalidPattern pattern _ =>
    String.ofList ("invalid exclude pattern ".toList ++ quote :: pattern.toList ++ [quote])
where
  /-- The mark around a pattern. -/
  quote : Char := '\x60'

def causeMessage : DiscoveryError → String
  | .invalidRoot _ cause => cause.message
  | .invalidPattern pattern cause =>
    "error parsing glob '" ++ pattern ++ "': " ++ cause.message

end DiscoveryError

/-- The source files of a project. -/
structure Discovery where
  /-- Where the root is, once its links are followed. -/
  root : Location
  /-- Where the files are. -/
  files : List Location
  deriving DecidableEq

namespace Discovery

/-! ## Below the root -/

/-- The ignore files do not say that `place` is to be ignored. -/
def isVisible (ignore : IgnoreFiles) (place : Location) (e : Entry) : Bool :=
  ignore.verdict? place e.isDir != some .ignored

/-- `e` is a directory that is not entered for its name. -/
def isExcludedDir (settings : Settings) (name : FileName) (e : Entry) : Bool :=
  e.isDir && settings.excludeDirs.any fun excluded => Utf8.encode excluded == name

/-- The ignore files for the entries of the directory `place`. -/
def ignoreIn (disk : Disk) (settings : Settings) (ignore : IgnoreFiles) (place : Location) :
    IgnoreFiles :=
  if settings.respectGitignore then ignore.push (IgnoreLayer.ofDirectory disk place) else ignore

mutual

/-- The regular files in what is at `place`. -/
def filesAt (disk : Disk) (settings : Settings) (ignore : IgnoreFiles) (place : Location) :
    Entry → List Location
  | .file _ => [place]
  | .link _ => []
  | .dir entries => filesIn disk settings (ignoreIn disk settings ignore place) place entries

def filesIn (disk : Disk) (settings : Settings) (ignore : IgnoreFiles) (place : Location) :
    List (FileName × Entry) → List Location
  | [] => []
  | (name, e) :: rest =>
    (if isVisible ignore (place ++ [name]) e && !isExcludedDir settings name e then
      filesAt disk settings ignore (place ++ [name]) e
    else []) ++ filesIn disk settings ignore place rest

end

/-! ## The files of a project -/

/-- A file has a recognized extension. -/
def isSource (settings : Settings) (file : Location) : Bool :=
  match file.path.extension? with
  | none => false
  | some extension => settings.extensions.any fun e => Utf8.encode e == extension

/-- A file below `root` matches one of the globs. -/
def isExcluded (globs : List Glob) (root file : Location) : Bool :=
  globs.any (·.accepts (root.below file).bytes)

def globs : List String → Except DiscoveryError (List Glob)
  | [] => .ok []
  | pattern :: rest =>
    match Glob.read true false pattern with
    | .error cause => .error (.invalidPattern pattern cause)
    | .ok glob => (globs rest).map (glob :: ·)

/-- Locations in the order of their names, each once. -/
def inOrder (files : List Location) : List Location :=
  (files.mergeSort fun a b => decide (a ≤ b)).eraseReps

/-- The ignore files for a root, those of the directories above it if it is a directory itself. -/
def ignoreAbove (disk : Disk) (settings : Settings) (root : Location) (e : Entry) :
    IgnoreFiles where
  layers := if settings.respectGitignore && e.isDir then IgnoreLayer.above disk root else []
  user := UserIgnore.ofDisk disk

def ofRoot (disk : Disk) (root : Path) (settings : Settings) : Except DiscoveryError Discovery :=
  match disk.locate false root with
  | .error cause => .error (.invalidRoot root cause)
  | .ok place => (globs settings.exclude).map fun excluded =>
    let found := match disk.root.at? place with
      | none => []
      | some e => filesAt disk settings (ignoreAbove disk settings place e) place e
    { root := place
      files := inOrder (found.filter fun file =>
        isSource settings file && !isExcluded excluded place file) }

def source (discovery : Discovery) (disk : Disk) : Source :=
  ⟨discovery.files.map Location.path, disk.read⟩

end Discovery

end ModuleGraph
