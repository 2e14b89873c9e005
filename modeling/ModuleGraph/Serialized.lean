import ModuleGraph.Graph
import ModuleGraph.Json.Basic
import ModuleGraph.Settings

/-!
# Graphs and settings as JSON

Each record is written as an object whose members stand in a fixed order. It is read from an
object whose members stand in any order, with further members between them, or from an array of
its parts in that fixed order; the last parts may be left off if they have defaults. An
identifier is read as it is written, and not normalized.
-/

namespace ModuleGraph

namespace Json

/-! ## Parts of a record -/

/-- The parts of a record with the given `names`: the members of an object that bear them, each at
most once, or the items of an array in turn. -/
def parts? (names : List String) : Json → Option (List (String × Json))
  | .obj members => do
    let members ← members.mapM fun (key, v) => key.map (·, v)
    let known := members.filter (names.contains ·.1)
    if (known.map (·.1)).Nodup then some known else none
  | .arr items => if items.length ≤ names.length then some (names.zip items) else none
  | _ => none

/-- The part called `name`, which has to be there. -/
def required? {α : Type} (parts : List (String × Json)) (name : String) (read : Json → Option α) :
    Option α :=
  (parts.lookup name).bind read

/-- The part called `name`, which may be left off. -/
def optional? {α : Type} (parts : List (String × Json)) (name : String) (read : Json → Option α)
    (default : α) : Option α :=
  match parts.lookup name with
  | none => some default
  | some v => read v

/-! ## Plain values -/

def text? : Json → Option String
  | .str s => s
  | _ => none

def texts? : Json → Option (List String)
  | .arr items => items.mapM text?
  | _ => none

/-- A natural number that sixty-four bits hold, written without sign, point and exponent. -/
def nat? : Json → Option Nat
  | .num { negative := false, integer, fraction := [], exponent := none } =>
    if integer < UInt64.size then some integer else none
  | _ => none

def bool? : Json → Option Bool
  | .bool b => some b
  | _ => none

/-- One of a few names, by itself or as the only key of an object whose value is null. -/
def choice? : Json → Option String
  | .str s => s
  | .obj [(key, .null)] => key
  | _ => none

end Json

open Json

/-! ## Identifiers and kinds -/

def FileId.toJson (id : FileId) : Json :=
  .ofString id.text

def FileId.ofJson? (v : Json) : Option FileId :=
  (text? v).map FileId.mk

def NodeKind.toJson : NodeKind → Json
  | .file => .ofString "file"

def NodeKind.ofJson? (v : Json) : Option NodeKind :=
  match choice? v with
  | some "file" => some .file
  | _ => none

def EdgeKind.toJson : EdgeKind → Json
  | .imports => .ofString "import"
  | .exports => .ofString "export"

def EdgeKind.ofJson? (v : Json) : Option EdgeKind :=
  match choice? v with
  | some "import" => some .imports
  | some "export" => some .exports
  | _ => none

/-! ## Nodes, edges, graphs -/

def Node.toJson (node : Node) : Json :=
  record [("id", node.id.toJson), ("label", .ofString node.label), ("type", node.kind.toJson)]

/-- A node; its kind may be left off. -/
def Node.ofJson? (v : Json) : Option Node := do
  let parts ← parts? ["id", "label", "type"] v
  let id ← required? parts "id" FileId.ofJson?
  let label ← required? parts "label" text?
  let kind ← optional? parts "type" NodeKind.ofJson? .file
  return { id, label, kind }

def Edge.toJson (edge : Edge) : Json :=
  record [("source", edge.source.toJson), ("target", edge.target.toJson),
    ("kind", edge.kind.toJson), ("importedNames", .arr (edge.names.map Json.ofString)),
    ("lineNumber", .ofNat edge.line)]

/-- An edge; every part has to be there. -/
def Edge.ofJson? (v : Json) : Option Edge := do
  let parts ← parts? ["source", "target", "kind", "importedNames", "lineNumber"] v
  let source ← required? parts "source" FileId.ofJson?
  let target ← required? parts "target" FileId.ofJson?
  let kind ← required? parts "kind" EdgeKind.ofJson?
  let names ← required? parts "importedNames" texts?
  let line ← required? parts "lineNumber" nat?
  return { source, target, kind, names, line }

/-- A graph: its nodes, and then its edges. -/
def Graph.toJson (g : Graph) : Json :=
  record [("nodes", .arr (g.nodes.toList.map Node.toJson)),
    ("edges", .arr (g.edges.map Edge.toJson))]

/-! ## Settings -/

def Settings.toJson (settings : Settings) : Json :=
  record [("extensions", .arr (settings.extensions.map Json.ofString)),
    ("exclude_dirs", .arr (settings.excludeDirs.map Json.ofString)),
    ("exclude", .arr (settings.exclude.map Json.ofString)),
    ("threads", match settings.threads with
      | some n => .ofNat n
      | none => .null),
    ("respect_gitignore", .bool settings.respectGitignore)]

/-- A number of workers, or null for none. -/
def Settings.threads? : Json → Option (Option Nat)
  | .null => some none
  | v => (nat? v).map some

/-- Settings; each part may be left off. -/
def Settings.ofJson? (v : Json) : Option Settings := do
  let parts ← parts?
    ["extensions", "exclude_dirs", "exclude", "threads", "respect_gitignore"] v
  let extensions ← optional? parts "extensions" texts? Settings.default.extensions
  let excludeDirs ← optional? parts "exclude_dirs" texts? Settings.default.excludeDirs
  let exclude ← optional? parts "exclude" texts? Settings.default.exclude
  let threads ← optional? parts "threads" Settings.threads? Settings.default.threads
  let respectGitignore ← optional? parts "respect_gitignore" bool?
    Settings.default.respectGitignore
  return { extensions, excludeDirs, exclude, threads, respectGitignore }

end ModuleGraph
