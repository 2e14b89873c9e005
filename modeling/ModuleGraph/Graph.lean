import Std.Data.HashMap
import Std.Data.HashSet
import ModuleGraph.FileId

/-!
# Import graphs

A node for each file, an edge for each import that leads to another file. Nodes are unique by
their identifier, and the first one entered stays; edges are kept as often as they are entered, so
that each import can be traced to its line. Both are kept in the order in which they were entered,
and neither is ever removed.

An edge is stored with the places of its two ends among the nodes. Questions about a file go
through its place, so none compares identifiers along the edges.
-/

namespace ModuleGraph

open Std (HashMap HashSet)

/-- What a node stands for. Files are all that is tracked. -/
inductive NodeKind where
  | file
  deriving DecidableEq

/-- What an edge stands for; a build makes imports only. -/
inductive EdgeKind where
  | imports
  | exports
  deriving DecidableEq

/-- A source file, with the name it is shown under. -/
structure Node where
  id : FileId
  label : String
  kind : NodeKind := .file
  deriving DecidableEq

/-- An import of `target` in `source`, with the names it imports and the line it stands on. -/
structure Edge where
  source : FileId
  target : FileId
  kind : EdgeKind := .imports
  names : List String
  line : Nat
  deriving DecidableEq

def Node.ofFile (id : FileId) : Node :=
  { id, label := id.fileName }

/-- An edge between two places among the nodes. -/
structure Arc where
  source : Nat
  target : Nat
  edge : Edge
  deriving DecidableEq

structure Graph where
  nodes : Array Node := #[]
  arcs : Array Arc := #[]
  /-- The place of each file among the nodes. -/
  index : HashMap FileId Nat := ∅

namespace Graph

def empty : Graph := {}

/-- Enters a node, unless its identifier is known; with the place of that identifier. -/
def addNode (g : Graph) (node : Node) : Graph × Nat :=
  match g.index[node.id]? with
  | some place => (g, place)
  | none =>
    let place := g.nodes.size
    ({ g with nodes := g.nodes.push node, index := g.index.insert node.id place }, place)

/-- Enters an edge between two known files, with its place among the edges. An edge from a file to
itself, or one with an end that is not known, is refused. -/
def addEdge (g : Graph) (edge : Edge) : Graph × Option Nat :=
  if edge.source = edge.target then (g, none)
  else match g.index[edge.source]?, g.index[edge.target]? with
    | some source, some target =>
      ({ g with arcs := g.arcs.push ⟨source, target, edge⟩ }, some g.arcs.size)
    | _, _ => (g, none)

/-- The edges, in the order in which they were entered. -/
def edges (g : Graph) : List Edge :=
  g.arcs.toList.map (·.edge)

def node? (g : Graph) (id : FileId) : Option Node :=
  g.index[id]?.bind fun place => g.nodes[place]?

/-- The edges whose end given by `side` is the file `id`. -/
def edgesAt (g : Graph) (side : Arc → Nat) (id : FileId) : List Edge :=
  match g.index[id]? with
  | none => []
  | some place => (g.arcs.toList.filter (side · == place)).map (·.edge)

/-- The edges that leave a file. -/
def importsOf (g : Graph) (id : FileId) : List Edge :=
  g.edgesAt (·.source) id

def importedBy (g : Graph) (id : FileId) : List Edge :=
  g.edgesAt (·.target) id

/-! ## Cycles

An arc whose target has no arc leaving it lies on no cycle. Once such arcs are taken away, again
and again, every arc that is left can be followed by another one, so that what is left is empty
exactly if there was no cycle. -/

/-- The arcs that another one can follow. -/
def continued (arcs : List Arc) : List Arc :=
  let sources : HashSet Nat := HashSet.ofList (arcs.map (·.source))
  arcs.filter fun a => sources.contains a.target

/-- What is left of `arcs` when every arc that leads nowhere is taken away, again and again. -/
def cyclicPart (arcs : List Arc) : List Arc :=
  let kept := continued arcs
  if kept.length < arcs.length then cyclicPart kept else arcs
termination_by arcs.length

def isCyclic (g : Graph) : Bool :=
  !(cyclicPart g.arcs.toList).isEmpty

end Graph

end ModuleGraph
