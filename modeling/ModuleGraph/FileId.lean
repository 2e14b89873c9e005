import ModuleGraph.Path
import ModuleGraph.TextPath

/-!
# File identifiers

A source file is known by its path as normalized text. Identifiers that are made from a path, as
text or as bytes, are normalized; identifiers that are read from a serialized graph are taken as
they are written.
-/

namespace ModuleGraph

/-- The identifier of a source file within one graph. -/
structure FileId where
  text : String
  deriving DecidableEq, Hashable

namespace FileId

def ofString (path : String) : FileId :=
  ⟨String.ofList (TextPath.normalize path.toList)⟩

/-- The identifier of the file at a path on disk. -/
def ofPath (path : Path) : FileId :=
  ofString path.display

def fileName (id : FileId) : String :=
  String.ofList (TextPath.fileName id.text.toList)

/-- The directory that holds the file: `/` for a file at the root, and empty for a relative
identifier without a directory. -/
def parent (id : FileId) : String :=
  String.ofList (TextPath.parent id.text.toList)

end FileId

end ModuleGraph
