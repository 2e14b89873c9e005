import ModuleGraph.Json.Basic
import ModuleGraph.Text.Decimal
import ModuleGraph.Text.Hexadecimal

/-!
# Writing JSON

Two layouts: `compact`, without any blank, and `pretty`, with two spaces for each level and a
member or an item on each line. In both, a string escapes the quote, the backslash and the
controls below U+0020, and nothing else.
-/

namespace ModuleGraph.Json

open Text

def escape (c : Char) : List Char :=
  if c = '"' then ['\\', '"']
  else if c = '\\' then ['\\', '\\']
  else if c.toNat = 0x08 then ['\\', 'b']
  else if c.toNat = 0x0C then ['\\', 'f']
  else if c = '\n' then ['\\', 'n']
  else if c = '\r' then ['\\', 'r']
  else if c = '\t' then ['\\', 't']
  else if c.toNat < 0x20 then
    ['\\', 'u', '0', '0', Hexadecimal.digit (c.toNat / 16), Hexadecimal.digit (c.toNat % 16)]
  else [c]

/-- A string in quotes. One that spells half of a surrogate pair is written as such a half. -/
def literal : Option String → List Char
  | some s => '"' :: s.toList.flatMap escape ++ ['"']
  | none => "\"\\ud800\"".toList

def number (n : Number) : List Char :=
  (if n.negative then ['-'] else []) ++ Decimal.write n.integer
    ++ (if n.fraction.isEmpty then [] else '.' :: n.fraction.map Decimal.digit)
    ++ (match n.exponent with
      | none => []
      | some (.ofNat e) => 'e' :: Decimal.write e
      | some (.negSucc e) => 'e' :: '-' :: Decimal.write (e + 1))

def atom : Json → List Char
  | .null => "null".toList
  | .bool true => "true".toList
  | .bool false => "false".toList
  | .num n => number n
  | .str s => literal s
  | .arr _ => "[]".toList
  | .obj _ => ['\x7b', '\x7d']

mutual

/-- A value without blanks. -/
def compactChars : Json → List Char
  | .arr (v :: rest) => '[' :: compactChars v ++ compactItems rest
  | .obj ((key, v) :: rest) => '\x7b' :: literal key ++ ':' :: compactChars v ++ compactMembers rest
  | v => atom v

def compactItems : List Json → List Char
  | [] => [']']
  | v :: rest => ',' :: compactChars v ++ compactItems rest

def compactMembers : List (Option String × Json) → List Char
  | [] => ['\x7d']
  | (key, v) :: rest => ',' :: literal key ++ ':' :: compactChars v ++ compactMembers rest

end

def compact (v : Json) : String :=
  String.ofList (compactChars v)

def newline (level : Nat) : List Char :=
  '\n' :: List.replicate (2 * level) ' '

mutual

/-- A value at a level, which its own items and members are one deeper than. -/
def prettyChars (level : Nat) : Json → List Char
  | .arr (v :: rest) =>
    '[' :: newline (level + 1) ++ prettyChars (level + 1) v ++ prettyItems level rest
  | .obj ((key, v) :: rest) =>
    '\x7b' :: newline (level + 1) ++ literal key ++ ':' :: ' ' :: prettyChars (level + 1) v
      ++ prettyMembers level rest
  | v => atom v

/-- The items after the first, and the end of the array at `level`. -/
def prettyItems (level : Nat) : List Json → List Char
  | [] => newline level ++ [']']
  | v :: rest =>
    ',' :: newline (level + 1) ++ prettyChars (level + 1) v ++ prettyItems level rest

/-- The members after the first, and the end of the object at `level`. -/
def prettyMembers (level : Nat) : List (Option String × Json) → List Char
  | [] => newline level ++ ['\x7d']
  | (key, v) :: rest =>
    ',' :: newline (level + 1) ++ literal key ++ ':' :: ' ' :: prettyChars (level + 1) v
      ++ prettyMembers level rest

end

/-- The text of a value, over as many lines as it has parts. -/
def pretty (v : Json) : String :=
  String.ofList (prettyChars 0 v)

end ModuleGraph.Json
