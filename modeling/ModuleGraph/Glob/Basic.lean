/-!
# Globs

A glob is a sequence of tokens. Between its characters it may hold `?`, `*`, classes of
characters, groups of alternatives, and `**` as a whole segment of a path. Paths are matched byte
by byte, so that a glob can be used on any path.
-/

namespace ModuleGraph

/-- A part of a glob. -/
inductive Glob.Token where
  | literal (c : Char)
  /-- `?` -/
  | any
  /-- `*` -/
  | star
  /-- `**` at the front: nothing, or any directories with the slash after them. -/
  | leading
  /-- `**` at the end: a slash and anything after it. -/
  | trailing
  /-- `**` between two slashes: one slash, or any directories between two. -/
  | between
  /-- `[…]`, or `[!…]` if it is negated, with a range for each of its members. -/
  | members (negated : Bool) (ranges : List (Char × Char))
  /-- `{…}`, with the branches between its commas. -/
  | alternatives (branches : List (List Glob.Token))

structure Glob where
  tokens : List Glob.Token
  /-- Whether `?` and `*` match a slash. -/
  crossing : Bool

/-- Why a text is not a glob. -/
inductive GlobError where
  | unclosedMembers
  | emptyRange (low high : Char)
  | unclosedGroup
  | unopenedGroup
  /-- A backslash at the end, with nothing to escape. -/
  | danglingEscape
  deriving DecidableEq

def GlobError.message : GlobError → String
  | .unclosedMembers => "unclosed character class; missing ']'"
  | .emptyRange low high =>
    String.ofList ("invalid range; '".toList ++ low :: "' > '".toList ++ high :: ['\''])
  | .unclosedGroup =>
    "unclosed alternate group; missing '\x7d' (maybe escape '\x7b' with '[\x7b]'?)"
  | .unopenedGroup =>
    "unopened alternate group; missing '\x7b' (maybe escape '\x7d' with '[\x7d]'?)"
  | .danglingEscape => "dangling '\\'"

end ModuleGraph
