import ModuleGraph.Glob.Match
import ModuleGraph.Glob.Reader
import ModuleGraph.Text.Blank

/-!
# Ignore rules

A line of an ignore file is a rule: a glob for what is to be ignored, or after `!` for what is to
be kept all the same. Of the rules of a file that match, the last one decides. Lines that are
empty, that start with `#`, or that hold no glob say nothing.
-/

namespace ModuleGraph

open Text

/-- A rule of an ignore file. -/
structure IgnoreRule where
  glob : Glob
  /-- What matches is kept, not ignored. -/
  keeps : Bool
  /-- Nothing but directories can match. -/
  directoriesOnly : Bool

/-- What rules say of a file or directory. -/
inductive Verdict where
  | ignored
  | kept
  deriving DecidableEq

namespace IgnoreRule

/-! ## Reading a line -/

/-- A line without the blanks at its end, unless the last one is escaped. -/
def written (line : List Char) : List Char :=
  if [' ', '\\'].isPrefixOf line.reverse then line else trimEnd line

/-- What a line says before its glob: whether it keeps, and whether a slash ties it to the
directory of the file; and the text after that. -/
def marks : List Char → Bool × Bool × List Char
  | '\\' :: '!' :: cs => (false, false, '!' :: cs)
  | '\\' :: '#' :: cs => (false, false, '#' :: cs)
  | '!' :: '/' :: cs => (true, true, cs)
  | '!' :: cs => (true, false, cs)
  | '/' :: cs => (false, true, cs)
  | cs => (false, false, cs)

/-- A glob without the slash that it ends in, which says that it is for directories only. A
backslash before that slash goes with it. -/
def withoutClosing (cs : List Char) : List Char × Bool :=
  match cs.reverse with
  | '/' :: '\\' :: before => (before.reverse, true)
  | '/' :: before => (before.reverse, true)
  | _ => (cs, false)

/-- A glob that is not tied to a place, made to match at any depth. -/
def anywhere (cs : List Char) : List Char :=
  if "**/".toList.isPrefixOf cs || cs == "**".toList then cs else "**/".toList ++ cs

/-- A glob for what is in a directory, made not to match the directory. -/
def inside (cs : List Char) : List Char :=
  if "/**".toList.isSuffixOf cs then cs ++ "/*".toList else cs

/-- The rule of a line, if it has one. A glob with a slash, in front or inside, is tied to the
directory of its file; any other matches at any depth below. -/
def ofLine? (line : List Char) : Option IgnoreRule :=
  if line.head? = some '#' then none
  else
    let line := written line
    if line.isEmpty then none
    else
      let (keeps, tied, cs) := marks line
      let (cs, directoriesOnly) := withoutClosing cs
      let cs := if tied || cs.contains '/' then cs else anywhere cs
      match Glob.read false true (String.ofList (inside cs)) with
      | .ok glob => some { glob, keeps, directoriesOnly }
      | .error _ => none

/-! ## Reading a file -/

def lineFeed : UInt8 := 0x0A

/-- A line without the carriage return that it ends in. -/
def withoutReturn (line : List UInt8) : List UInt8 :=
  if line.getLast? = some 0x0D then line.dropLast else line

/-- The lines of a file. A carriage return counts as part of the line feed after it. -/
def linesOf (content : List UInt8) : List (List UInt8) :=
  match (content.splitOn lineFeed).reverse with
  | [] => []
  | last :: before => (before.reverse.map withoutReturn) ++ (if last.isEmpty then [] else [last])

/-- The lines up to the first one that is not text. -/
def textLines : List (List UInt8) → List (List Char)
  | [] => []
  | line :: rest =>
    match Utf8.decode? line with
    | some s => s.toList :: textLines rest
    | none => []

/-- The first line without byte order marks in front of it. -/
def withoutMarks : List (List Char) → List (List Char)
  | [] => []
  | first :: rest => first.dropWhile (· == '\uFEFF') :: rest

def ofContent (content : List UInt8) : List IgnoreRule :=
  (withoutMarks (textLines (linesOf content))).filterMap ofLine?

/-! ## Deciding -/

def verdict (rule : IgnoreRule) : Verdict :=
  if rule.keeps then .kept else .ignored

/-- The rule matches a path, which is relative to the directory of the rule's file. -/
def applies (rule : IgnoreRule) (path : Path) (isDir : Bool) : Bool :=
  (isDir || !rule.directoriesOnly) && rule.glob.accepts path.bytes

/-- What the last rule that matches says. -/
def decide? (rules : List IgnoreRule) (path : Path) (isDir : Bool) : Option Verdict :=
  (rules.reverse.find? (·.applies path isDir)).map verdict

end IgnoreRule

end ModuleGraph
