import ModuleGraph.Json.Printer
import ModuleGraph.Serialized

/-!
# Renderings of a graph

Three texts for one graph: its JSON form, the element lists that a Cytoscape view takes, and a
Graphviz digraph. The JSON form keeps the order of the parts of each record; the element lists
have every object's keys in alphabetical order.
-/

namespace ModuleGraph

inductive Format where
  | json
  | cytoscape
  | dot
  deriving DecidableEq

def Format.ofName? : String → Option Format
  | "json" => some .json
  | "cytoscape" => some .cytoscape
  | "dot" => some .dot
  | _ => none

namespace Graph

/-- A record as an element of a view. -/
def element (v : Json) : Json :=
  Json.record [("data", v)]

def elements (g : Graph) : Json :=
  (Json.record [("nodes", .arr (g.nodes.toList.map fun node => element node.toJson)),
    ("edges", .arr (g.edges.map fun edge => element edge.toJson))]).sorted

/-! ## Graphviz -/

def dotEscape (c : Char) : List Char :=
  if c = '\\' ∨ c = '"' then ['\\', c] else [c]

def dotQuoted (s : String) : List Char :=
  '"' :: s.toList.flatMap dotEscape ++ ['"']

def dotIndent : List Char :=
  List.replicate 4 ' '

def dotLabel (s : String) : List Char :=
  " [label=".toList ++ dotQuoted s ++ "];\n".toList

/-- The statement of a node, labelled with the name of the file. -/
def dotNode (node : Node) : List Char :=
  dotIndent ++ dotQuoted node.id.text ++ dotLabel node.label

/-- The statement of an edge, labelled with the imported names. -/
def dotEdge (edge : Edge) : List Char :=
  dotIndent ++ dotQuoted edge.source.text ++ " -> ".toList ++ dotQuoted edge.target.text
    ++ dotLabel (", ".intercalate edge.names)

/-- The graph as a digraph, with nodes before edges. -/
def dot (g : Graph) : String :=
  String.ofList <| "digraph imports \x7b\n".toList ++ g.nodes.toList.flatMap dotNode
    ++ g.edges.flatMap dotEdge ++ "\x7d\n".toList

/-- The graph in a format. -/
def render (g : Graph) : Format → String
  | .json => g.toJson.pretty
  | .cytoscape => g.elements.pretty
  | .dot => g.dot

end Graph

end ModuleGraph
