import ModuleGraph.Glob.Basic

/-!
# Reading globs

A glob is read from left to right. What `**` means hangs on its neighbours: it has to be a whole
segment of a path, between slashes, the ends of the glob, or the ends of a branch of a group; else
it is two stars. A slash beside it belongs to it.
-/

namespace ModuleGraph.Glob

/-! ## Members -/

/-- The members of a class up to its closing bracket, after those in `ranges`, which has the last
one first; `pending` says that a range is to be ended. A closing bracket or a dash that comes first
is a member, and so is a dash that comes last. -/
def ranges (before : List (Char × Char)) (pending : Bool) :
    List Char → Except GlobError (List (Char × Char) × List Char)
  | [] => .error .unclosedMembers
  | c :: cs =>
    if c = ']' ∧ before ≠ [] then
      .ok ((if pending then ('-', '-') :: before else before).reverse, cs)
    else match pending, before with
      | true, (low, _) :: earlier =>
        if c < low then .error (.emptyRange low c) else ranges ((low, c) :: earlier) false cs
      | _, before =>
        if c = '-' ∧ before ≠ [] then ranges before true cs
        else ranges ((c, c) :: before) false cs

/-- A class after its opening bracket. -/
def class? (cs : List Char) : Except GlobError (Token × List Char) :=
  match cs with
  | '!' :: cs => (ranges [] false cs).map fun (rs, cs) => (.members true rs, cs)
  | '^' :: cs => (ranges [] false cs).map fun (rs, cs) => (.members true rs, cs)
  | cs => (ranges [] false cs).map fun (rs, cs) => (.members false rs, cs)

theorem length_le_of_ranges {before rs : List (Char × Char)} {pending : Bool} {cs rest : List Char}
    (h : ranges before pending cs = .ok (rs, rest)) : rest.length ≤ cs.length := by
  induction cs generalizing before pending with
  | nil => cases h
  | cons c cs ih =>
    simp only [ranges] at h
    split at h
    · cases h; simp
    split at h
    · split at h
      · cases h
      · exact Nat.le_succ_of_le (ih h)
    · split at h
      · exact Nat.le_succ_of_le (ih h)
      · exact Nat.le_succ_of_le (ih h)

theorem length_le_of_class? {cs rest : List Char} {t : Token} (h : class? cs = .ok (t, rest)) :
    rest.length ≤ cs.length := by
  have key : ∀ {negated : Bool} {cs : List Char},
      ((ranges [] false cs).map fun (rs, cs) => (Token.members negated rs, cs)) = .ok (t, rest) →
      rest.length ≤ cs.length := by
    intro negated cs h
    cases hr : ranges [] false cs with
    | error e => rw [hr] at h; cases h
    | ok r => rw [hr] at h; cases h; exact length_le_of_ranges hr
  unfold class? at h
  split at h
  · exact Nat.le_succ_of_le (key h)
  · exact Nat.le_succ_of_le (key h)
  · exact key h

/-! ## Groups -/

/-- A glob that is being read. Tokens and branches are kept with the last one first. -/
structure Draft where
  /-- The tokens of the innermost branch. -/
  tokens : List Token := []
  /-- For each open group, the innermost first: its branches so far, and the tokens before it. -/
  groups : List (List (List Token) × List Token) := []

namespace Draft

def push (draft : Draft) (t : Token) : Draft :=
  { draft with tokens := t :: draft.tokens }

def enter (draft : Draft) : Draft :=
  ⟨[], ([], draft.tokens) :: draft.groups⟩

/-- A comma: the end of a branch in a group, and a character outside of groups. -/
def comma (draft : Draft) : Draft :=
  match draft.groups with
  | [] => draft.push (.literal ',')
  | (branches, before) :: groups => ⟨[], (draft.tokens.reverse :: branches, before) :: groups⟩

def leave (draft : Draft) : Except GlobError Draft :=
  match draft.groups with
  | [] => .error .unopenedGroup
  | (branches, before) :: groups =>
    .ok ⟨.alternatives (draft.tokens.reverse :: branches).reverse :: before, groups⟩

/-- The token of `**` in the place of the slash before it. After another `**` that is not between
slashes it adds nothing. -/
def join (draft : Draft) (t : Token) : Draft :=
  match draft.tokens with
  | .leading :: _ => draft
  | .trailing :: _ => draft
  | _ :: before => { draft with tokens := t :: before }
  | [] => draft

/-- A character that ends a branch of an open group. -/
def ends (draft : Draft) (c : Char) : Bool :=
  (c == ',' || c == '\x7d') && !draft.groups.isEmpty

/-- Two stars between the characters `before?` and `after?`, and whether a slash after them belongs
to them. -/
def doubleStar (draft : Draft) (before? after? : Option Char) : Draft × Bool :=
  let stars := ((draft.push .star).push .star, false)
  if draft.tokens.isEmpty then
    match after? with
    | none => (draft.push .leading, false)
    | some c => if c = '/' then (draft.push .leading, true) else stars
  else if before? ≠ some '/' ∧
      (draft.groups.isEmpty ∨ (before? ≠ some ',' ∧ before? ≠ some '\x7b')) then stars
  else match after? with
    | none => (draft.join .trailing, false)
    | some c =>
      if c = '/' then (draft.join .between, true)
      else if draft.ends c then (draft.join .trailing, false)
      else stars

end Draft

/-! ## Globs -/

/-- The draft of a text, read after `draft` and after the character `before?`. A class that is not
closed is an error, unless its bracket may stand for itself (`lenient`). -/
def draft (lenient : Bool) (before? : Option Char) (d : Draft) (cs : List Char) :
    Except GlobError Draft :=
  match cs with
  | [] => .ok d
  | '*' :: '*' :: cs =>
    match d.doubleStar before? cs.head? with
    | (d, true) => draft lenient (some '/') d cs.tail
    | (d, false) => draft lenient (some '*') d cs
  | '\\' :: cs =>
    match cs with
    | [] => .error .danglingEscape
    | c :: cs => draft lenient (some c) (d.push (.literal c)) cs
  | '[' :: cs =>
    match h : class? cs with
    | .ok (t, rest) =>
      have := length_le_of_class? h
      draft lenient (some ']') (d.push t) rest
    | .error .unclosedMembers =>
      if lenient then draft lenient (some '[') (d.push (.literal '[')) cs
      else .error .unclosedMembers
    | .error e => .error e
  | '\x7d' :: cs =>
    match d.leave with
    | .ok d => draft lenient (some '\x7d') d cs
    | .error e => .error e
  | '\x7b' :: cs => draft lenient (some '\x7b') d.enter cs
  | ',' :: cs => draft lenient (some ',') d.comma cs
  | '?' :: cs => draft lenient (some '?') (d.push .any) cs
  | '*' :: cs => draft lenient (some '*') (d.push .star) cs
  | c :: cs => draft lenient (some c) (d.push (.literal c)) cs
termination_by cs.length
decreasing_by all_goals (simp only [List.length_cons, List.length_tail]; omega)

/-- The glob that a text spells. -/
def read (crossing lenient : Bool) (pattern : String) : Except GlobError Glob :=
  match draft lenient none {} pattern.toList with
  | .error e => .error e
  | .ok d => if d.groups.isEmpty then .ok ⟨d.tokens.reverse, crossing⟩ else .error .unclosedGroup

end ModuleGraph.Glob
