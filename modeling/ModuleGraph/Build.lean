import ModuleGraph.Graph
import ModuleGraph.Resolver
import ModuleGraph.Settings
import ModuleGraph.Source
import ModuleGraph.Statement

/-!
# Building the graph

One pass over the listed files. The files are told apart by their identifiers, and all of them are
known before any is read, so an import may lead to a file that is listed later. Each file is then
read on its own, into a slot of its own: the edges of its imports, or the reason why it cannot be
read. The slots are gathered in the order of the files, so the outcome does not depend on the
order in which they are filled; the first slot that holds a failure is the failure of the build.

The slots are filled by workers. The settings may ask for a number of them, and then the machine may
refuse to start so many (`buildOn`). The workers that it keeps for those that ask for no number are
taken to be there.
-/

namespace ModuleGraph

open Std (HashSet)

/-- Why there is no graph. -/
inductive BuildError where
  /-- No file is listed. -/
  | noFilesFound
  | unreadable (path : Path) (cause : FileError)
  deriving DecidableEq

/-- The wording of an error, without its cause. -/
def BuildError.message : BuildError → String
  | .noFilesFound => "no source files found"
  | .unreadable path _ => "failed to read " ++ path.display

/-- Why there is no graph on a machine that has to start workers. -/
inductive BuildFailure where
  | failed (e : BuildError)
  /-- As many workers as the settings ask for cannot be started. -/
  | noWorkers (cause : String)
  deriving DecidableEq

namespace BuildFailure

/-- The wording of a failure, without its cause. -/
def message : BuildFailure → String
  | .failed e => e.message
  | .noWorkers _ => "failed to start worker pool"

def causeMessage? : BuildFailure → Option String
  | .failed .noFilesFound => none
  | .failed (.unreadable _ cause) => some cause.message
  | .noWorkers cause => some cause

end BuildFailure

/-- What is known of the files when one of them is read. -/
structure Project where
  /-- The files to be read, each under its first path. -/
  files : List (Path × FileId)
  resolver : Resolver

namespace Project

/-- Each path with its identifier, without those whose identifier is in `seen` or came before. -/
def distinct (seen : HashSet FileId) : List Path → List (Path × FileId)
  | [] => []
  | path :: rest =>
    let id := FileId.ofPath path
    if seen.contains id then distinct seen rest
    else (path, id) :: distinct (seen.insert id) rest

def ofPaths (paths : List Path) (extensions : List String) : Project :=
  let files := distinct ∅ paths
  { files, resolver := Resolver.ofFiles (files.map (·.2)) extensions }

/-- The edge of an import in the file `id`, if it leads to another file. -/
def edge? (project : Project) (id : FileId) (i : Import) : Option Edge :=
  match project.resolver.resolveFrom i.specifier id with
  | none => none
  | some target =>
    if target = id then none
    else some { source := id, target, kind := .imports, names := i.names, line := i.line }

/-- The edges of a file whose text is `text`. -/
def edgesOf (project : Project) (id : FileId) (text : String) : List Edge :=
  (importsOf text).filterMap (project.edge? id)

/-- What is known of a file once it is read: its edges, or why it cannot be read. -/
def slot (project : Project) (read : Path → Except FileError String) (file : Path × FileId) :
    Except BuildError (List Edge) :=
  match read file.1 with
  | .error cause => .error (.unreadable file.1 cause)
  | .ok text => .ok (project.edgesOf file.2 text)

/-- The edges of all slots, or the first failure among them. -/
def gather : List (Except BuildError (List Edge)) → Except BuildError (List Edge)
  | [] => .ok []
  | .error e :: _ => .error e
  | .ok edges :: rest => (gather rest).map (edges ++ ·)

/-- The graph of the project's files and `edges`. -/
def graph (project : Project) (edges : List Edge) : Graph :=
  let nodes := project.files.foldl (fun g file => (g.addNode (Node.ofFile file.2)).1) Graph.empty
  edges.foldl (fun g edge => (g.addEdge edge).1) nodes

end Project

/-- The import graph of the files of `source`. Of the settings, only the extensions matter. -/
def build (source : Source) (settings : Settings) : Except BuildError Graph :=
  let project := Project.ofPaths source.paths settings.extensions
  if project.files.isEmpty then .error .noFilesFound
  else (Project.gather (project.files.map (project.slot source.read))).map project.graph

/-- The import graph on a machine that says of a number of workers why so many cannot be started, if
they cannot. Workers are started once there are files for them. -/
def buildOn (refusal? : Nat → Option String) (source : Source) (settings : Settings) :
    Except BuildFailure Graph :=
  if (Project.ofPaths source.paths settings.extensions).files.isEmpty then
    .error (.failed .noFilesFound)
  else match settings.threads.bind refusal? with
    | some cause => .error (.noWorkers cause)
    | none => (build source settings).mapError .failed

end ModuleGraph
