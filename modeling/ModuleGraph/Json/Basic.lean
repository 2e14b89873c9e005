/-!
# JSON values

The values that graphs and settings are exchanged in. A number keeps the form it is written in, so
that `1`, `-0` and `1.0` stay apart. A string may spell half of a surrogate pair, which no text
contains; such a string is a JSON value all the same, and is refused only where its text matters.
-/

namespace ModuleGraph

/-- A JSON number: its sign, its integer, the digits after the point, and the exponent of ten. -/
structure Json.Number where
  negative : Bool := false
  integer : Nat
  fraction : List Nat := []
  exponent : Option Int := none
  deriving DecidableEq

/-- A JSON value. Members of an object are kept as they are written, repeated keys included. A
string or a key is `none` when it spells half of a surrogate pair. -/
inductive Json where
  | null
  | bool (b : Bool)
  | num (n : Json.Number)
  | str (s : Option String)
  | arr (items : List Json)
  | obj (members : List (Option String × Json))

namespace Json

def ofString (s : String) : Json :=
  .str (some s)

def ofNat (n : Nat) : Json :=
  .num { integer := n }

def record (members : List (String × Json)) : Json :=
  .obj (members.map fun (key, value) => (some key, value))

mutual

/-- The value with the members of every object in the order of their keys. -/
def sorted : Json → Json
  | .arr items => .arr (sortedItems items)
  | .obj members => .obj <| (sortedMembers members).mergeSort fun a b =>
    decide (a.1.getD "" ≤ b.1.getD "")
  | v => v

def sortedItems : List Json → List Json
  | [] => []
  | v :: rest => sorted v :: sortedItems rest

def sortedMembers : List (Option String × Json) → List (Option String × Json)
  | [] => []
  | (key, v) :: rest => (key, sorted v) :: sortedMembers rest

end

end Json

end ModuleGraph
