import ModuleGraph.FileError

/-!
# Where source files come from

A build asks two things of the files it runs over: their paths, in an order that the graph keeps,
and the text of each. `FileSet` holds both in memory, as an editor does with open buffers.
-/

namespace ModuleGraph

/-- The files a build runs over. -/
structure Source where
  /-- The paths of the files, in the order in which they are listed. -/
  paths : List Path
  /-- The whole text of a file. -/
  read : Path → Except FileError String

/-- Files held in memory, in the order in which they were entered. -/
structure FileSet where
  entries : List (Path × String) := []

namespace FileSet

def empty : FileSet := {}

/-- `entries` with `text` at the first entry whose path is `path`, or at a new last entry. -/
def put (path : Path) (text : String) : List (Path × String) → List (Path × String)
  | [] => [(path, text)]
  | (known, old) :: rest =>
    if known.same path then (known, text) :: rest else (known, old) :: put path text rest

/-- Enters a file. One that is there already gets the new text, and keeps its place and the
spelling of its path. -/
def insert (files : FileSet) (path : Path) (text : String) : FileSet :=
  ⟨put path text files.entries⟩

def size (files : FileSet) : Nat :=
  files.entries.length

def isEmpty (files : FileSet) : Bool :=
  files.entries.isEmpty

/-- The paths, as they were first spelled. -/
def paths (files : FileSet) : List Path :=
  files.entries.map (·.1)

def read (files : FileSet) (path : Path) : Except FileError String :=
  match files.entries.find? (·.1.same path) with
  | some (_, text) => .ok text
  | none => .error (.notInSet path)

def toSource (files : FileSet) : Source :=
  ⟨files.paths, files.read⟩

end FileSet

end ModuleGraph
