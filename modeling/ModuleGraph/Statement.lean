import ModuleGraph.Text.Blank
import ModuleGraph.Text.Word
import ModuleGraph.TextPath

/-!
# Import statements

One shape of statement is looked for in a source text, `import <clause> from '<path>'`, with
either quote on either side of the path. The clause is a braced list, `*` with or without
`as <name>`, or a name. Blanks may stand between the parts; they must stand after `from`, and
before it if nothing else ends a name. Everything else that imports something (`import './a'`,
`require`, `import a, { b } from`) is none of these and is passed over.

`read?` reads a statement at the front of a text. Each part can end in one place only, so it never
has to come back on a choice: a name runs to the end of its word, unless the word itself ends in
`from` and a path follows. `scan` finds the statements of a text from left to right, each
beginning at the first place after the one before it where one can be read.
-/

namespace ModuleGraph

open Text

/-- What a statement imports. -/
inductive Clause where
  /-- `{ … }`, with what stands between the braces. -/
  | listed (body : List Char)
  /-- `*` or `* as name`. -/
  | everything (alias? : Option (List Char))
  /-- A name for the default export. -/
  | default (name : List Char)
  deriving DecidableEq

/-- An import statement: what it imports, and the path it is written with. -/
structure Statement where
  clause : Clause
  path : List Char
  deriving DecidableEq

/-- The name that stands for all exports of a file. -/
def wildcard : String := "*"

/-- The names a clause imports. In a braced list they are the pieces between commas, without the
blanks around them and without the empty ones; further opening braces at the front of the list are
passed over. -/
def Clause.names : Clause → List String
  | .listed body =>
    ((((body.dropWhile (· == '{')).splitOn ',').map trim).filter (!·.isEmpty)).map String.ofList
  | .everything _ => [wildcard]
  | .default name => [String.ofList name]

namespace Statement

/-! ## Reading one statement -/

/-- The rest of the text after `word`. -/
def after? : List Char → List Char → Option (List Char)
  | [], cs => some cs
  | _ :: _, [] => none
  | w :: word, c :: cs => if w = c then after? word cs else none

def afterBlanks? : List Char → Option (List Char)
  | [] => none
  | c :: cs => if isBlank c then some (trimStart cs) else none

def fromWord : List Char := ['f', 'r', 'o', 'm']

/-- The word before another name for all that is imported. -/
def asWord : List Char := ['a', 's']

/-- A name and the rest of the text after the `from` that follows it. -/
def nameThenFrom? (cs : List Char) : Option (List Char × List Char) :=
  let word := cs.takeWhile isWord
  let rest := cs.dropWhile isWord
  if word.isEmpty then none
  else match (afterBlanks? rest).bind (after? fromWord) with
    | some after => some (word, after)
    | none => match TextPath.dropTail? fromWord word with
      | some (c :: name) => some (c :: name, rest)
      | _ => none

/-- The clause at the front of a text and the rest of the text after the `from` that follows. -/
def clauseThenFrom? : List Char → Option (Clause × List Char)
  | '{' :: cs =>
    let body := cs.takeWhile (· != '}')
    if body.isEmpty then none
    else match cs.dropWhile (· != '}') with
      | [] => none
      | _ :: rest => (after? fromWord (trimStart rest)).map (.listed body, ·)
  | '*' :: cs =>
    match ((afterBlanks? cs).bind (after? asWord)).bind afterBlanks? with
    | some rest => (nameThenFrom? rest).map fun (name, rest) => (.everything (some name), rest)
    | none => (after? fromWord (trimStart cs)).map (.everything none, ·)
  | cs => (nameThenFrom? cs).map fun (name, rest) => (.default name, rest)

/-- Either quote starts and ends a path. -/
def isQuote (c : Char) : Bool :=
  c == '\'' || c == '"'

/-- A path in quotes and the rest of the text after it. -/
def quoted? : List Char → Option (List Char × List Char)
  | [] => none
  | q :: cs =>
    if isQuote q then
      let path := cs.takeWhile (!isQuote ·)
      match cs.dropWhile (!isQuote ·) with
      | [] => none
      | _ :: rest => if path.isEmpty then none else some (path, rest)
    else none

def importWord : List Char := ['i', 'm', 'p', 'o', 'r', 't']

/-- The statement at the front of a text and the rest of the text after it. -/
def read? (cs : List Char) : Option (Statement × List Char) := do
  let cs ← after? importWord cs
  let (clause, cs) ← clauseThenFrom? (trimStart cs)
  let cs ← afterBlanks? cs
  let (path, cs) ← quoted? cs
  return (⟨clause, path⟩, cs)

/-! ## What is read is taken off the text -/

theorem eq_append_of_after? {word cs rest : List Char} (h : after? word cs = some rest) :
    cs = word ++ rest := by
  induction word generalizing cs with
  | nil => simpa [after?] using h
  | cons w word ih =>
    cases cs with
    | nil => simp [after?] at h
    | cons c cs =>
      simp only [after?] at h
      split at h
      · next hc => rw [hc, ih h]; rfl
      · cases h

theorem after?_append (word rest : List Char) : after? word (word ++ rest) = some rest := by
  induction word with
  | nil => rfl
  | cons w word ih => simpa [after?] using ih

theorem length_le_of_after? {word cs rest : List Char} (h : after? word cs = some rest) :
    rest.length ≤ cs.length := by
  rw [eq_append_of_after? h]; simp

theorem length_dropWhile_le (p : Char → Bool) (cs : List Char) :
    (cs.dropWhile p).length ≤ cs.length :=
  (List.dropWhile_sublist p).length_le

theorem length_lt_of_afterBlanks? {cs rest : List Char} (h : afterBlanks? cs = some rest) :
    rest.length < cs.length := by
  cases cs with
  | nil => cases h
  | cons c cs =>
    simp only [afterBlanks?] at h
    split at h
    · cases h
      exact Nat.lt_succ_of_le (length_dropWhile_le ..)
    · cases h

theorem length_le_of_nameThenFrom? {cs name rest : List Char}
    (h : nameThenFrom? cs = some (name, rest)) : rest.length ≤ cs.length := by
  simp only [nameThenFrom?] at h
  have hd := length_dropWhile_le isWord cs
  split at h
  · cases h
  split at h
  · next after hf =>
    cases h
    obtain ⟨mid, hm, hr⟩ := Option.bind_eq_some_iff.1 hf
    have := length_lt_of_afterBlanks? hm
    have := length_le_of_after? hr
    omega
  split at h
  · cases h; exact hd
  · cases h

theorem length_le_of_clauseThenFrom? {cs rest : List Char} {clause : Clause}
    (h : clauseThenFrom? cs = some (clause, rest)) : rest.length ≤ cs.length := by
  unfold clauseThenFrom? at h
  split at h
  · next cs =>
    simp only at h
    split at h
    · cases h
    split at h
    · cases h
    · next _ tail heq =>
      simp only [Option.map_eq_some_iff, Prod.mk.injEq] at h
      obtain ⟨_, ha, -, rfl⟩ := h
      have h1 := length_le_of_after? ha
      have h2 := length_dropWhile_le isBlank tail
      have h3 := length_dropWhile_le (· != '}') cs
      rw [heq] at h3
      simp only [trimStart, List.length_cons] at *
      omega
  · next cs =>
    split at h
    · next rest' hr =>
      simp only [Option.map_eq_some_iff, Prod.mk.injEq, Prod.exists] at h
      obtain ⟨_, _, hn, -, rfl⟩ := h
      obtain ⟨_, h2, h3⟩ := Option.bind_eq_some_iff.1 hr
      obtain ⟨_, h4, h5⟩ := Option.bind_eq_some_iff.1 h2
      have := length_le_of_nameThenFrom? hn
      have := length_lt_of_afterBlanks? h3
      have := length_le_of_after? h5
      have := length_lt_of_afterBlanks? h4
      simp only [List.length_cons]
      omega
    · simp only [Option.map_eq_some_iff, Prod.mk.injEq] at h
      obtain ⟨_, ha, -, rfl⟩ := h
      have h1 := length_le_of_after? ha
      have h2 := length_dropWhile_le isBlank cs
      simp only [trimStart, List.length_cons] at *
      omega
  · simp only [Option.map_eq_some_iff, Prod.mk.injEq, Prod.exists] at h
    obtain ⟨_, _, hn, -, rfl⟩ := h
    exact length_le_of_nameThenFrom? hn

theorem length_lt_of_quoted? {cs path rest : List Char} (h : quoted? cs = some (path, rest)) :
    rest.length < cs.length := by
  unfold quoted? at h
  split at h
  · cases h
  · next q cs =>
    split at h
    · simp only at h
      split at h
      · cases h
      · next heq =>
        split at h
        · cases h
        · cases h
          have h3 := length_dropWhile_le (!isQuote ·) cs
          rw [heq] at h3
          simp only [List.length_cons] at *
          omega
    · cases h

/-- Reading a statement takes something off the text. -/
theorem length_lt_of_read? {cs rest : List Char} {statement : Statement}
    (h : read? cs = some (statement, rest)) : rest.length < cs.length := by
  simp only [read?, Option.bind_eq_bind, Option.bind_eq_some_iff, Prod.exists, Option.pure_def,
    Option.some.injEq, Prod.mk.injEq] at h
  obtain ⟨c1, h1, _, c2, h2, c3, h3, _, c4, h4, -, rfl⟩ := h
  have := length_le_of_after? h1
  have := length_le_of_clauseThenFrom? h2
  have := length_lt_of_afterBlanks? h3
  have := length_lt_of_quoted? h4
  have := length_dropWhile_le isBlank c1
  simp only [trimStart] at *
  omega

/-! ## Scanning a text -/

/-- A statement in a text: how many characters stand before it, what is written there, and what
it says. -/
structure Occurrence where
  offset : Nat
  written : List Char
  statement : Statement
  deriving DecidableEq

/-- The statements of `cs`, from left to right, when `offset` characters stand before it. -/
def scan (offset : Nat) : List Char → List Occurrence
  | [] => []
  | c :: cs =>
    match h : read? (c :: cs) with
    | some (statement, rest) =>
      let size := (c :: cs).length - rest.length
      ⟨offset, (c :: cs).take size, statement⟩ :: scan (offset + size) rest
    | none => scan (offset + 1) cs
termination_by cs => cs.length
decreasing_by
  · exact length_lt_of_read? h
  · simp

/-! ## Lines -/

/-- `part` occurs in `cs`. -/
def occursIn (part : List Char) : List Char → Bool
  | [] => part.isEmpty
  | c :: cs => part.isPrefixOf (c :: cs) || occursIn part cs

theorem occursIn_iff {part cs : List Char} : occursIn part cs = true ↔ part <:+: cs := by
  induction cs with
  | nil => simp [occursIn]
  | cons c cs ih => simp [occursIn, ih, List.infix_cons_iff]

def linesOf (text : List Char) : List (List Char) :=
  text.splitOn '\n'

/-- The line reported for a statement: the first line of `text` in which it is written, which may
stand before the statement itself. A statement that spans lines is written in none; the line it
starts on is reported instead. `lines` are the lines of `text`. -/
def Occurrence.line (text : List Char) (lines : List (List Char)) (o : Occurrence) : Nat :=
  match lines.findIdx? (occursIn o.written) with
  | some index => index + 1
  | none => (text.take o.offset).count '\n' + 1

end Statement

/-- What is kept of an import statement. -/
structure Import where
  /-- The imported names, or the wildcard. -/
  names : List String
  /-- The path as it is written. -/
  specifier : String
  /-- The line, counted from one. -/
  line : Nat
  deriving DecidableEq

/-- The imports of a source text, from left to right. -/
def importsOf (text : String) : List Import :=
  let cs := text.toList
  let lines := Statement.linesOf cs
  (Statement.scan 0 cs).map fun o =>
    { names := o.statement.clause.names
      specifier := String.ofList o.statement.path
      line := o.line cs lines }

end ModuleGraph
