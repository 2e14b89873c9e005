import ModuleGraph.Json.Basic
import ModuleGraph.Text.Decimal
import ModuleGraph.Text.Hexadecimal

/-!
# Reading JSON

`parse?` reads a text that is one JSON value between blanks. Values may nest to any depth. Where a
value is read, its first character decides what it is, so nothing is read twice.
-/

namespace ModuleGraph.Json

open Text

/-- The four blanks of JSON. -/
def isBlank (c : Char) : Bool :=
  c == ' ' || c == '\n' || c == '\t' || c == '\r'

/-- The text after its leading blanks. -/
def skip (cs : List Char) : List Char :=
  cs.dropWhile isBlank

/-! ## Strings -/

/-- A string as it is written: characters, and code units given by number. -/
inductive Piece where
  | char (c : Char)
  | unit (n : Nat)

def unescape? : Char → Option Char
  | '"' => some '"'
  | '\\' => some '\\'
  | '/' => some '/'
  | 'b' => some '\x08'
  | 'f' => some '\x0c'
  | 'n' => some '\n'
  | 'r' => some '\r'
  | 't' => some '\t'
  | _ => none

/-- The pieces of a string up to its closing quote, and the text after the quote. -/
def pieces? : List Char → Option (List Piece × List Char)
  | [] => none
  | '"' :: cs => some ([], cs)
  | '\\' :: 'u' :: a :: b :: c :: d :: cs => do
    let n ← Hexadecimal.value? [a, b, c, d]
    let (rest, cs) ← pieces? cs
    return (.unit n :: rest, cs)
  | ['\\'] => none
  | '\\' :: e :: cs => do
    let c ← unescape? e
    let (rest, cs) ← pieces? cs
    return (.char c :: rest, cs)
  | c :: cs =>
    if c.toNat < 0x20 then none
    else (pieces? cs).map fun (rest, cs) => (.char c :: rest, cs)

def isHigh (n : Nat) : Bool := 0xD800 ≤ n && n ≤ 0xDBFF

def isLow (n : Nat) : Bool := 0xDC00 ≤ n && n ≤ 0xDFFF

/-- The text that pieces spell, unless one of them is half of a pair without the other. -/
def spell? : List Piece → Option (List Char)
  | [] => some []
  | .char c :: rest => (spell? rest).map (c :: ·)
  | .unit h :: .unit l :: rest =>
    if isHigh h && isLow l then
      (spell? rest).map (Char.ofNat (0x10000 + (h - 0xD800) * 0x400 + (l - 0xDC00)) :: ·)
    else if isHigh h || isLow h then none
    else (spell? (.unit l :: rest)).map (Char.ofNat h :: ·)
  | .unit n :: rest =>
    if isHigh n || isLow n then none else (spell? rest).map (Char.ofNat n :: ·)

/-- The rest of a string after its opening quote. -/
def literal? (cs : List Char) : Option (Option String × List Char) :=
  (pieces? cs).map fun (ps, cs) => ((spell? ps).map String.ofList, cs)

/-! ## Numbers -/

/-- A run of at least one digit, and the text after it. -/
def digits? (cs : List Char) : Option (List Char × List Char) :=
  let run := cs.takeWhile Char.isDigit
  if run.isEmpty then none else some (run, cs.dropWhile Char.isDigit)

/-- An integer: zero, or digits that do not start with zero. -/
def integer? : List Char → Option (Nat × List Char)
  | '0' :: cs => some (0, cs)
  | cs => (digits? cs).map fun (run, cs) => (Decimal.value run, cs)

def fraction? : List Char → Option (List Nat × List Char)
  | '.' :: cs => (digits? cs).map fun (run, cs) => (run.map Decimal.worth, cs)
  | cs => some ([], cs)

def exponentDigits? : List Char → Option (Int × List Char)
  | '-' :: cs => (digits? cs).map fun (run, cs) => (-(Decimal.value run : Int), cs)
  | '+' :: cs => (digits? cs).map fun (run, cs) => ((Decimal.value run : Int), cs)
  | cs => (digits? cs).map fun (run, cs) => ((Decimal.value run : Int), cs)

def exponent? : List Char → Option (Option Int × List Char)
  | 'e' :: cs => (exponentDigits? cs).map fun (e, cs) => (some e, cs)
  | 'E' :: cs => (exponentDigits? cs).map fun (e, cs) => (some e, cs)
  | cs => some (none, cs)

def number? (negative : Bool) (cs : List Char) : Option (Json × List Char) := do
  let (integer, cs) ← integer? cs
  let (fraction, cs) ← fraction? cs
  let (exponent, cs) ← exponent? cs
  return (.num { negative, integer, fraction, exponent }, cs)

/-! ## Values -/

def word? : List Char → List Char → Option (List Char)
  | [], cs => some cs
  | _ :: _, [] => none
  | w :: word, c :: cs => if w = c then word? word cs else none

mutual

/-- A value at the front of a text, and the text after it. Each step down or along takes one from
the budget; two for each character are always enough. -/
def value? : Nat → List Char → Option (Json × List Char)
  | 0, _ => none
  | n + 1, cs => match skip cs with
    | 'n' :: cs => (word? ['u', 'l', 'l'] cs).map (.null, ·)
    | 't' :: cs => (word? ['r', 'u', 'e'] cs).map (.bool true, ·)
    | 'f' :: cs => (word? ['a', 'l', 's', 'e'] cs).map (.bool false, ·)
    | '"' :: cs => (literal? cs).map fun (s, cs) => (.str s, cs)
    | '[' :: cs => match skip cs with
      | ']' :: cs => some (.arr [], cs)
      | cs => (items? n cs).map fun (items, cs) => (.arr items, cs)
    | '\x7b' :: cs => match skip cs with
      | '\x7d' :: cs => some (.obj [], cs)
      | cs => (members? n cs).map fun (members, cs) => (.obj members, cs)
    | '-' :: cs => number? true cs
    | cs => number? false cs

/-- The items of an array up to its closing bracket, at least one. -/
def items? : Nat → List Char → Option (List Json × List Char)
  | 0, _ => none
  | n + 1, cs => do
    let (v, cs) ← value? n cs
    match skip cs with
    | ',' :: cs => (items? n cs).map fun (rest, cs) => (v :: rest, cs)
    | ']' :: cs => some ([v], cs)
    | _ => none

/-- The members of an object up to its closing brace, at least one. -/
def members? : Nat → List Char → Option (List (Option String × Json) × List Char)
  | 0, _ => none
  | n + 1, cs => match skip cs with
    | '"' :: cs => do
      let (key, cs) ← literal? cs
      match skip cs with
      | ':' :: cs => do
        let (v, cs) ← value? n cs
        match skip cs with
        | ',' :: cs => (members? n cs).map fun (rest, cs) => ((key, v) :: rest, cs)
        | '\x7d' :: cs => some ([(key, v)], cs)
        | _ => none
      | _ => none
    | _ => none

end

def parse? (s : String) : Option Json := do
  let cs := s.toList
  let (v, cs) ← value? (2 * cs.length + 2) cs
  if (skip cs).isEmpty then some v else none

end ModuleGraph.Json
