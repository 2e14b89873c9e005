import ModuleGraph.FileError

/-!
# Disks

A disk is a tree of directories that hold files and symbolic links, and a working directory that
relative paths start from. A path is followed step by step; a link on the way is replaced by the
steps of its target, at most `linkBudget` times on one path. What a path leads to is a location,
the names from the root down, which passes through no link.

A file that is there may still be refused, for want of permission or for any other reason that has
to do with the file alone, and so may a file that is to be written. Directories are never refused:
each of them is taken to be one that may be entered and listed. A file is read or written as a whole
or not at all.
-/

namespace ModuleGraph

/-- A name in a directory. -/
abbrev FileName := List UInt8

/-- What a directory holds under a name. -/
inductive Entry where
  | file (content : List UInt8)
  | link (target : Path)
  | dir (entries : List (FileName × Entry))

namespace Entry

def put (name : FileName) (e : Entry) (entries : List (FileName × Entry)) :
    List (FileName × Entry) :=
  if (entries.lookup name).isSome then
    entries.map fun (n, old) => if n = name then (n, e) else (n, old)
  else entries ++ [(name, e)]

/-- What is at a location below `e`. -/
def at? (e : Entry) : List FileName → Option Entry
  | [] => some e
  | name :: rest => match e with
    | .dir entries => (entries.lookup name).bind (·.at? rest)
    | _ => none

/-- `e` with `new` at a location below it. Directories that are missing on the way are made;
nothing is put below a file or a link. -/
def set? (new : Entry) (e : Entry) : List FileName → Option Entry
  | [] => some new
  | name :: rest => match e with
    | .dir entries =>
      (set? new ((entries.lookup name).getD (.dir [])) rest).map fun inner =>
        .dir (put name inner entries)
    | _ => none

def remove (e : Entry) : List FileName → Entry
  | [] => e
  | name :: rest => match e with
    | .dir entries =>
      if rest = [] then .dir (entries.filter (·.1 ≠ name))
      else match entries.lookup name with
        | some inner => .dir (put name (inner.remove rest) entries)
        | none => e
    | _ => e

def isDir : Entry → Bool
  | .dir _ => true
  | _ => false

/-- Looking a name up after the entries under one name are replaced. -/
theorem lookup_replaced (name : FileName) (e : Entry) (entries : List (FileName × Entry))
    (n : FileName) :
    (entries.map fun (m, old) => if m = name then (m, e) else (m, old)).lookup n =
      (entries.lookup n).map fun old => if n = name then e else old := by
  induction entries with
  | nil => rfl
  | cons head rest ih =>
    obtain ⟨m, old⟩ := head
    by_cases hn : n = m
    · subst hn
      by_cases h : n = name
      · simp only [List.map_cons, if_pos h, List.lookup_cons_self, Option.map_some]
      · simp only [List.map_cons, if_neg h, List.lookup_cons_self, Option.map_some]
    · have hb : (n == m) = false := by simpa using hn
      by_cases h : m = name
      · simpa only [List.map_cons, if_pos h, List.lookup_cons, hb] using ih
      · simpa only [List.map_cons, if_neg h, List.lookup_cons, hb] using ih

theorem lookup_put (name : FileName) (e : Entry) (entries : List (FileName × Entry))
    (n : FileName) :
    (put name e entries).lookup n = if n = name then some e else entries.lookup n := by
  unfold put
  split
  · next h =>
    rw [lookup_replaced]
    obtain ⟨old, ho⟩ := Option.isSome_iff_exists.1 h
    split
    · next hn => rw [hn, ho, Option.map_some]
    · rw [Option.map_id']
  · next h =>
    have ho : entries.lookup name = none := Option.not_isSome_iff_eq_none.1 h
    rw [List.lookup_append]
    split
    · next hn => rw [hn, ho, List.lookup_cons_self, Option.none_or]
    · next hn =>
      have hb : (n == name) = false := by simpa using hn
      rw [List.lookup_cons, hb, List.lookup_nil, Option.or_none]

/-- An entry that is set at a location is found there. -/
theorem at?_of_set? {new e e' : Entry} {place : List FileName} (h : set? new e place = some e') :
    e'.at? place = some new := by
  induction place generalizing e e' with
  | nil => cases h; rfl
  | cons name rest ih =>
    cases e with
    | dir entries =>
      simp only [set?, Option.map_eq_some_iff] at h
      obtain ⟨inner, hi, rfl⟩ := h
      simp [at?, lookup_put, ih hi]
    | file _ => simp [set?] at h
    | link _ => simp [set?] at h

end Entry

/-- A place on a disk: the names that lead to it from the root. -/
abbrev Location := List FileName

def Location.path (location : Location) : Path :=
  ⟨Path.slash :: List.intercalate [Path.slash] location⟩

/-- The path of what is at `location`, read from `start`, which holds it. -/
def Location.below (start location : Location) : Path :=
  ⟨List.intercalate [Path.slash] (location.drop start.length)⟩

/-- Where a user keeps files of their own. -/
structure User where
  /-- The home directory. -/
  home : Option Path := none
  /-- The directory for configuration, if it is not `.config` in the home directory. -/
  config : Option Path := none

/-- A tree of files, the directory that relative paths start from, and what is known of the user and
of the files that the user may not touch. -/
structure Disk where
  root : Entry := .dir []
  working : Location := []
  user : User := {}
  /-- Why the file at a location cannot be read, if it cannot. -/
  unreadable : Location → Option FileError := fun _ => none
  /-- Why no file can be written at a location, if none can. -/
  unwritable : Location → Option FileError := fun _ => none

namespace Disk

/-! ## Following a path -/

/-- One step on a path. -/
inductive Step where
  | root
  /-- `.`, which only a directory has. -/
  | here
  /-- `..`; the root is its own parent. -/
  | up
  | name (n : FileName)
  /-- The slash that a path ends in, which only a directory may be followed by. -/
  | close
  deriving DecidableEq

/-- The step of a segment; an empty one is none. -/
def Step.ofSegment? (segment : List UInt8) : Option Step :=
  if segment = [] then none
  else if segment = [Path.dot] then some .here
  else if segment = [Path.dot, Path.dot] then some .up
  else some (.name segment)

/-- The steps of a path. -/
def steps (p : Path) : List Step :=
  (if p.isAbsolute then [.root] else []) ++ p.segments.filterMap Step.ofSegment?
    ++ (if p.bytes.getLast? = some Path.slash then [.close] else [])

/-- How many links are followed on one path. -/
def linkBudget : Nat := 40

/-- Where steps lead to from the location `place`, with `budget` links to be followed. What does
not exist is an error, unless it is to be made (`making`) and the last step names it. -/
def follow (tree : Entry) (making : Bool) (budget : Nat) (place : Location) :
    List Step → Except FileError Location
  | [] => .ok place
  | .root :: rest => follow tree making budget [] rest
  | step :: rest =>
    match tree.at? place with
    | some (.dir entries) =>
      match step with
      | .name n =>
        if making ∧ rest = [.close] then .error .isADirectory
        else match entries.lookup n with
          | none => if making ∧ rest = [] then .ok (place ++ [n]) else .error .notFound
          | some (.link target) =>
            match budget with
            | 0 => .error .tooManyLinks
            | budget + 1 => follow tree making budget place (steps target ++ rest)
          | some _ => follow tree making budget (place ++ [n]) rest
      | .up => follow tree making budget place.dropLast rest
      | _ => follow tree making budget place rest
    | _ => .error .notADirectory
termination_by todo => (budget, todo.length)

def locate (disk : Disk) (making : Bool) (p : Path) : Except FileError Location :=
  if p.bytes = [] then .error .notFound
  else follow disk.root making linkBudget disk.working (steps p)

/-! ## Reading and writing -/

def entry (disk : Disk) (p : Path) : Except FileError Entry := do
  match disk.root.at? (← disk.locate false p) with
  | some e => .ok e
  | none => .error .notFound

def contains (disk : Disk) (p : Path) : Bool :=
  match disk.entry p with
  | .ok _ => true
  | .error _ => false

/-- What comes of opening the file at a location, which holds `content`. -/
def opened (disk : Disk) (place : Location) (content : List UInt8) :
    Except FileError (List UInt8) :=
  match disk.unreadable place with
  | none => .ok content
  | some cause => .error cause

def readBytes (disk : Disk) (p : Path) : Except FileError (List UInt8) := do
  let place ← disk.locate false p
  match disk.root.at? place with
  | some (.file content) => disk.opened place content
  | some (.dir _) => .error .isADirectory
  | some (.link _) => .error .tooManyLinks
  | none => .error .notFound

def read (disk : Disk) (p : Path) : Except FileError String := do
  match Text.Utf8.decode? (← disk.readBytes p) with
  | some text => .ok text
  | none => .error .notText

/-- The disk with a file of the given text. The directory that is to hold it has to exist. -/
def write (disk : Disk) (p : Path) (text : String) : Except FileError Disk := do
  let place ← disk.locate true p
  match disk.root.at? place with
  | some (.dir _) => .error .isADirectory
  | _ => match disk.unwritable place with
    | some cause => .error cause
    | none => match (Entry.file (Text.Utf8.encode text)).set? disk.root place with
      | some root => .ok { disk with root }
      | none => .error .notADirectory

def remove (disk : Disk) (p : Path) : Except FileError Disk := do
  return { disk with root := disk.root.remove (← disk.locate false p) }

end Disk

end ModuleGraph
