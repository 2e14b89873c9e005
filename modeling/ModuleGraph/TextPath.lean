/-!
# Paths as text

File identifiers and import specifiers are paths written as text, with `/` or `\` between
segments. `normalize` writes each in one way: a single `/` between segments, no empty segment, no
`.`, and `..` only at the front of a relative path, where there is nothing left to leave. `join`
reads a specifier from a directory; `stem?` takes an extension off a path.
-/

namespace ModuleGraph.TextPath

/-- Both separators written as `/`. -/
def unify (path : List Char) : List Char :=
  path.map fun c => if c = '\\' then '/' else c

/-- The segment that stays where it is. -/
def here : List Char := ['.']

/-- The segment that leaves the innermost directory. -/
def up : List Char := ['.', '.']

/-- One more segment after `kept`, the segments so far with the innermost first. Leaving the root
of an absolute path leads to the root; leaving the start of a relative one is kept as `..`. -/
def enter (absolute : Bool) (kept : List (List Char)) (segment : List Char) : List (List Char) :=
  if segment = [] ∨ segment = here then kept
  else if segment = up then
    match kept with
    | top :: below => if top = up then (if absolute then kept else up :: kept) else below
    | [] => if absolute then [] else [up]
  else segment :: kept

/-- Whether `path` starts at the root, when its separators are unified. -/
def isAbsolute (path : List Char) : Bool :=
  path.head? == some '/'

/-- The segments `path` comes down to, outermost first, when its separators are unified. -/
def segments (path : List Char) : List (List Char) :=
  ((path.splitOn '/').foldl (enter (isAbsolute path)) []).reverse

/-- The one spelling of `path`. -/
def normalize (path : List Char) : List Char :=
  let path := unify path
  let body := List.intercalate ['/'] (segments path)
  if isAbsolute path then '/' :: body else body

/-- What `raw` names when it is read in `dir`: an absolute `raw`, or any in the empty directory,
stands for itself. -/
def join (dir raw : List Char) : List Char :=
  let raw := unify raw
  if isAbsolute raw || dir.isEmpty then normalize raw else normalize (dir ++ '/' :: raw)

def fileName (path : List Char) : List Char :=
  (path.splitOn '/').getLastD []

/-- What stands before the last `/` of `path`: `/` if nothing does, and nothing if there is no
`/`. -/
def parent (path : List Char) : List Char :=
  match (path.splitOn '/').dropLast with
  | [] => []
  | outer =>
    let dir := List.intercalate ['/'] outer
    if dir.isEmpty then ['/'] else dir

/-- `l` without `tail` at its end, if it ends so. -/
def dropTail? (tail l : List Char) : Option (List Char) :=
  if tail.isSuffixOf l then some (l.take (l.length - tail.length)) else none

/-- `path` without `.` and `extension` at its end. What is left has to name a file: it is not
empty and does not end in `/`. -/
def stem? (extension path : List Char) : Option (List Char) :=
  (dropTail? ('.' :: extension) path).filter fun stem =>
    !stem.isEmpty && stem.getLast? != some '/'

theorem dropTail?_eq_some_iff {tail l stem : List Char} :
    dropTail? tail l = some stem ↔ l = stem ++ tail := by
  unfold dropTail?
  constructor
  · intro h
    split at h
    · next hs =>
      obtain ⟨s, rfl⟩ := List.isSuffixOf_iff_suffix.1 hs
      simp at h
      rw [h]
    · cases h
  · rintro rfl
    simp

end ModuleGraph.TextPath
