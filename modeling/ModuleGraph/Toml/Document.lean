import ModuleGraph.Toml.Scalar

/-!
# TOML documents

A document is a list of lines: headers, pairs of a key and a value, and lines that say nothing. A
value may go on over further lines if it is an array or a string of that kind. The lines are read
first and entered into tables after that, one by one, each under the last header before it.
-/

namespace ModuleGraph.Toml

/-! ## Values -/

/-- The text after blanks, ends of lines and comments, as they may stand between the items of an
array. A comment has to end with its line. -/
def layout? (inComment : Bool) : List Char → Option (List Char)
  | [] => if inComment then none else some []
  | '\n' :: cs => layout? false cs
  | '\r' :: '\n' :: cs => layout? false cs
  | c :: cs =>
    if inComment then (if isPlain c then layout? true cs else none)
    else if isSpace c then layout? false cs
    else if c = '#' then layout? true cs
    else some (c :: cs)

/-- A number starts like a date or a time of day if its first digits are followed as those of a
year or an hour are. -/
def startsMoment (cs : List Char) : Bool :=
  let run := (cs.takeWhile Char.isDigit).length
  (run == 4 && cs[4]? == some '-') || (run == 2 && cs[2]? == some ':')

/-- A value that holds no others. -/
def scalar? : List Char → Option (Toml × List Char)
  | 't' :: 'r' :: 'u' :: 'e' :: cs => some (.boolean true, cs)
  | 'f' :: 'a' :: 'l' :: 's' :: 'e' :: cs => some (.boolean false, cs)
  | '"' :: cs => (string? ('"' :: cs)).map fun (s, cs) => (.string s, cs)
  | '\'' :: cs => (string? ('\'' :: cs)).map fun (s, cs) => (.string s, cs)
  | cs => if startsMoment cs then moment? cs else number? cs

mutual

/-- A value at the front of a text, inside which values may nest to `depth`, and the text after
it. Each step down or along takes one from the budget; two for each character are always enough. -/
def value? : Nat → Nat → List Char → Option (Toml × List Char)
  | 0, _, _ => none
  | _ + 1, 0, cs => scalar? cs
  | n + 1, depth + 1, cs => match cs with
    | '[' :: cs => do
      let (items, cs) ← items? n depth (← layout? false cs)
      return (.array items, cs)
    | '\x7b' :: cs => do
      let (entries, cs) ← match skipSpaces cs with
        | '\x7d' :: cs => some ([], cs)
        | cs => members? n depth [] cs
      return (.table .inline entries, cs)
    | cs => scalar? cs

/-- The items of an array up to its closing bracket, in front of which a comma may stand. -/
def items? : Nat → Nat → List Char → Option (List Toml × List Char)
  | 0, _, _ => none
  | _ + 1, _, ']' :: cs => some ([], cs)
  | n + 1, depth, cs => do
    let (v, cs) ← value? n depth cs
    match ← layout? false cs with
    | ',' :: cs => (items? n depth (← layout? false cs)).map fun (rest, cs) => (v :: rest, cs)
    | ']' :: cs => some ([v], cs)
    | _ => none

/-- The pairs of an inline table up to its closing brace, at least one, entered after `entries`. -/
def members? : Nat → Nat → Entries → List Char → Option (Entries × List Char)
  | 0, _, _, _ => none
  | n + 1, depth, entries, cs => do
    let ((path, key), cs) ← dottedKey? cs
    let (v, cs) ← value? n depth (skipSpaces (← past? '=' cs))
    let entries ← enterDotted path key v .inline entries
    match skipSpaces cs with
    | ',' :: cs => members? n depth entries cs
    | '\x7d' :: cs => some (entries, cs)
    | _ => none

end

/-! ## Lines -/

/-- What a line says. Keys that are joined by dots are given as those before the last, and the
last. -/
inductive Line where
  | blank
  | header (path : List String) (key : String)
  | item (path : List String) (key : String)
  | pair (path : List String) (key : String) (value : Toml)

/-- The text after blanks, a comment and the end of the line or of the text. -/
def lineEnd? (cs : List Char) : Option (List Char) :=
  let cs := match skipSpaces cs with
    | '#' :: cs => cs.dropWhile isPlain
    | cs => cs
  if cs.isEmpty then some [] else newline? cs

/-- The line at the front of a text that has no blanks in front of it, without its end. -/
def statement? : List Char → Option (Line × List Char)
  | '[' :: '[' :: cs => do
    let ((path, key), cs) ← dottedKey? cs
    return (.item path key, ← past? ']' (← past? ']' cs))
  | '[' :: cs => do
    let ((path, key), cs) ← dottedKey? cs
    return (.header path key, ← past? ']' cs)
  | cs => do
    let ((path, key), cs) ← dottedKey? cs
    let cs := skipSpaces (← past? '=' cs)
    let (v, cs) ← value? (2 * cs.length + 2) maxDepth cs
    return (.pair path key v, cs)

def line? (cs : List Char) : Option (Line × List Char) :=
  match lineEnd? cs with
  | some cs => some (.blank, cs)
  | none => do
    let (line, cs) ← statement? (skipSpaces cs)
    return (line, ← lineEnd? cs)

/-- The lines of a text. A line is at least one character long, so that a budget of as many lines
as there are characters is enough. -/
def lines? : Nat → List Char → Option (List Line)
  | _, [] => some []
  | 0, _ => none
  | n + 1, cs => do
    let (line, cs) ← line? cs
    return line :: (← lines? n cs)

/-! ## Documents -/

/-- The document so far: the path of the last header, and the entries of the whole. -/
structure Draft where
  current : List String := []
  entries : Entries := []

def Draft.add (draft : Draft) : Line → Option Draft
  | .blank => some draft
  | .header path key =>
    (modify false (open? key) path .header draft.entries).map (⟨path ++ [key], ·⟩)
  | .item path key =>
    (modify false (append? key) path .header draft.entries).map (⟨path ++ [key], ·⟩)
  | .pair path key value =>
    (modify false (enterDotted path key value) draft.current .header draft.entries).map
      (⟨draft.current, ·⟩)

/-- The entries of a document. A byte order mark may stand in front of it. -/
def read? (s : String) : Option Entries := do
  let cs := match s.toList with
    | '\uFEFF' :: cs => cs
    | cs => cs
  let lines ← lines? cs.length cs
  let draft ← lines.foldlM Draft.add {}
  return draft.entries

end ModuleGraph.Toml
