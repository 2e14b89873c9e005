import Std.Data.HashMap
import Std.Data.HashSet
import ModuleGraph.FileId

/-!
# Resolving specifiers

Which known file a specifier names is decided by the text of the paths alone. The specifier is
joined to the importer's directory, and the first of these that is known is meant:

1. the path itself;
2. a file whose path is the same once a recognized extension is taken off both;
3. the path with a recognized extension added.

Extensions are listed in order of preference. The second step looks into a table that holds one
file for each extensionless path, the one whose extension is preferred most, whatever the order in
which the files were listed.
-/

namespace ModuleGraph

open Std (HashMap HashSet)

/-- `path` without the first of `extensions` that it ends in, and the place of that extension in
the order of preference. -/
def splitExtension? (extensions : List String) (path : List Char) : Option (List Char × Nat) :=
  extensions.zipIdx.findSome? fun (extension, rank) =>
    (TextPath.stem? extension.toList path).map (·, rank)

/-- What is known about the files of a project when a specifier is resolved. -/
structure Resolver where
  /-- The files. -/
  known : HashSet FileId
  /-- The most preferred file for each path without an extension, with its extension's rank. -/
  stems : HashMap String (Nat × FileId)
  /-- The recognized extensions, most preferred first. -/
  extensions : List String

namespace Resolver

/-- Enters `id` under its path without an extension, unless a file whose extension is preferred at
least as much is there. -/
def record (extensions : List String) (stems : HashMap String (Nat × FileId)) (id : FileId) :
    HashMap String (Nat × FileId) :=
  match splitExtension? extensions id.text.toList with
  | none => stems
  | some (stem, rank) =>
    match stems[String.ofList stem]? with
    | some (best, _) => if best ≤ rank then stems else stems.insert (String.ofList stem) (rank, id)
    | none => stems.insert (String.ofList stem) (rank, id)

def ofFiles (files : List FileId) (extensions : List String) : Resolver where
  known := HashSet.ofList files
  stems := files.foldl (record extensions) ∅
  extensions := extensions

/-- The known file whose identifier reads `path`. -/
def find? (r : Resolver) (path : List Char) : Option FileId :=
  let id : FileId := ⟨String.ofList path⟩
  if r.known.contains id then some id else none

/-- The known file that is most preferred among those that read `path` once an extension is taken
off both; a path that has no recognized extension is compared as it is. -/
def findStem? (r : Resolver) (path : List Char) : Option FileId :=
  let stem := match splitExtension? r.extensions path with
    | some (stem, _) => stem
    | none => path
  (r.stems[String.ofList stem]?).map (·.2)

/-- The known file that reads `path` and an extension, for the first extension that gives one. -/
def findExtended? (r : Resolver) (path : List Char) : Option FileId :=
  r.extensions.findSome? fun extension => r.find? (path ++ '.' :: extension.toList)

/-- The file that `raw` names when it is written in a file of the directory `dir`. -/
def resolve (r : Resolver) (raw dir : String) : Option FileId :=
  let path := TextPath.join dir.toList raw.toList
  (r.find? path).or <| (r.findStem? path).or (r.findExtended? path)

def resolveFrom (r : Resolver) (raw : String) (importer : FileId) : Option FileId :=
  r.resolve raw importer.parent

end Resolver

end ModuleGraph
