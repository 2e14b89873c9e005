import ModuleGraph.Glob.Basic
import ModuleGraph.Path

/-!
# Matching globs

Where a glob has got to in a text is a set of places: before its first byte, after it, and so on.
Each token takes the places where it may start to those where it may end. A set is a list with a
mark for every place, one more than there are bytes, so a token takes a single pass over the text
whatever the tokens before it have left open.
-/

namespace ModuleGraph.Glob

open Text

/-- A mark for every place of a text. -/
abbrev Marks := List Bool

def past (p : UInt8 → Bool) (text : List UInt8) (marks : Marks) : Marks :=
  false :: List.zipWith (fun b mark => mark && p b) text marks

/-- Past any number of bytes that `p` admits; `reached` says that the first place is reached from
before it. -/
def run (p : UInt8 → Bool) (reached : Bool) : List UInt8 → Marks → Marks
  | b :: text, mark :: marks =>
    let here := reached || mark
    here :: run p (here && p b) text marks
  | _, mark :: _ => [reached || mark]
  | _, [] => []

def either (a b : Marks) : Marks :=
  List.zipWith or a b

def pastAll (bytes : List UInt8) (text : List UInt8) (marks : Marks) : Marks :=
  bytes.foldl (fun marks b => past (· == b) text marks) marks

def bytesOf (c : Char) : List UInt8 :=
  String.utf8EncodeChar c

/-- A class matches one byte: one of the bytes of its members, or one between the last byte of the
lower and the first byte of the upper end of a range. -/
def inRange (b : UInt8) (range : Char × Char) : Bool :=
  let low := bytesOf range.1
  let high := bytesOf range.2
  low.contains b || high.contains b
    || (range.1 != range.2 && low.getLastD 0 ≤ b && b ≤ high.headD 0)

mutual

def pastToken (crossing : Bool) (text : List UInt8) (marks : Marks) : Token → Marks
  | .literal c => pastAll (bytesOf c) text marks
  | .any => past (fun b => crossing || b != Path.slash) text marks
  | .star => run (fun b => crossing || b != Path.slash) false text marks
  | .leading =>
    either marks (past (· == Path.slash) text (run (fun _ => true) false text marks))
  | .trailing => run (fun _ => true) false text (past (· == Path.slash) text marks)
  | .between =>
    let inside := past (· == Path.slash) text marks
    either inside (past (· == Path.slash) text (run (fun _ => true) false text inside))
  | .members negated ranges => past (fun b => ranges.any (inRange b) != negated) text marks
  | .alternatives branches =>
    if areBlank branches then marks else pastBranches crossing text marks branches

/-- Past one of the branches, without those that hold nothing. -/
def pastBranches (crossing : Bool) (text : List UInt8) (marks : Marks) :
    List (List Token) → Marks
  | [] => marks.map fun _ => false
  | branch :: rest =>
    let others := pastBranches crossing text marks rest
    if isBlank branch then others else either (pastTokens crossing text marks branch) others

def pastTokens (crossing : Bool) (text : List UInt8) (marks : Marks) : List Token → Marks
  | [] => marks
  | t :: rest => pastTokens crossing text (pastToken crossing text marks t) rest

/-- A branch holds nothing: no token, or groups alone that hold nothing. -/
def isBlank : List Token → Bool
  | [] => true
  | .alternatives branches :: rest => areBlank branches && isBlank rest
  | _ :: _ => false

def areBlank : List (List Token) → Bool
  | [] => true
  | branch :: rest => isBlank branch && areBlank rest

end

/-- The glob matches the whole text. A glob that is `**` alone matches every text. -/
def accepts (glob : Glob) (text : List UInt8) : Bool :=
  match glob.tokens with
  | [.leading] => true
  | tokens =>
    (pastTokens glob.crossing text (true :: text.map fun _ => false) tokens).getLastD false

end ModuleGraph.Glob
