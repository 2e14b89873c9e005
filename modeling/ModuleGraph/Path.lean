import ModuleGraph.Text.Utf8

/-!
# Paths as bytes

A path on disk is a string of bytes, which need not be text. Two spellings are the same path when
they have the same components: repeated and trailing `/` do not count, nor does a `.` that is not
the first component. `..` is a component like any other, and `\` is an ordinary byte.
-/

namespace ModuleGraph

/-- A path as it is spelled. -/
structure Path where
  bytes : List UInt8
  deriving DecidableEq

namespace Path

open Text

/-- The byte between components. -/
def slash : UInt8 := 0x2F

def dot : UInt8 := 0x2E

/-- What a path is made of: the root, a leading `.`, a `..`, or a name. -/
inductive Component where
  | root
  | here
  | up
  | name (bytes : List UInt8)
  deriving DecidableEq

def ofString (s : String) : Path :=
  ⟨Utf8.encode s⟩

/-- The path for display, with U+FFFD for what is not text. -/
def display (p : Path) : String :=
  Utf8.decodeLossy p.bytes

def segments (p : Path) : List (List UInt8) :=
  p.bytes.splitOn slash

/-- A path that starts with `/` does not depend on where it is read. -/
def isAbsolute (p : Path) : Bool :=
  p.bytes.head? == some slash

/-- A segment after the first, as a component; an empty one and `.` are none. -/
def Component.ofSegment? (segment : List UInt8) : Option Component :=
  if segment = [] ∨ segment = [dot] then none
  else if segment = [dot, dot] then some .up
  else some (.name segment)

def components (p : Path) : List Component :=
  match p.segments with
  | [] => []
  | first :: rest =>
    let later := rest.filterMap Component.ofSegment?
    if p.isAbsolute then .root :: later
    else if first = [dot] then .here :: later
    else (Component.ofSegment? first).toList ++ later

/-- `p` and `q` are spellings of one path. -/
def same (p q : Path) : Bool :=
  p.components == q.components

/-- The name of the last component, unless the path ends otherwise. -/
def fileName? (p : Path) : Option (List UInt8) :=
  match p.components.getLast? with
  | some (.name n) => some n
  | _ => none

/-- What follows the last dot of a name. A name without a dot, or whose only dot is its first
byte, has no extension. -/
def extensionOf? (name : List UInt8) : Option (List UInt8) :=
  match (name.splitOn dot).reverse with
  | _ :: [] | _ :: [[]] => none
  | last :: _ => some last
  | [] => none

def extension? (p : Path) : Option (List UInt8) :=
  p.fileName?.bind extensionOf?

/-- `q` read from `p`: an absolute `q` stands for itself. -/
def join (p q : Path) : Path :=
  if q.isAbsolute then q
  else if p.bytes.isEmpty || p.bytes.getLast? == some slash then ⟨p.bytes ++ q.bytes⟩
  else ⟨p.bytes ++ slash :: q.bytes⟩

theorem same_iff {p q : Path} : p.same q = true ↔ p.components = q.components := by
  simp [same]

theorem same_refl (p : Path) : p.same p = true :=
  same_iff.2 rfl

theorem same_symm {p q : Path} (h : p.same q = true) : q.same p = true :=
  same_iff.2 (same_iff.1 h).symm

theorem same_trans {p q r : Path} (h₁ : p.same q = true) (h₂ : q.same r = true) :
    p.same r = true :=
  same_iff.2 ((same_iff.1 h₁).trans (same_iff.1 h₂))

end Path

end ModuleGraph
