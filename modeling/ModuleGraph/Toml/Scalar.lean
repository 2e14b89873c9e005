import ModuleGraph.Text.Decimal
import ModuleGraph.Text.Hexadecimal
import ModuleGraph.Toml.Basic

/-!
# TOML scalars

Strings in their four forms, numbers, dates and times, and keys. Each function reads at the front
of a text and gives what it read with the text after it, or nothing if what stands there breaks
the rules. What may follow is for the caller to check, so `0123` reads as `0` here and is refused
because digits follow it.
-/

namespace ModuleGraph.Toml

open Text

/-! ## Blanks -/

def isSpace (c : Char) : Bool :=
  c == ' ' || c == '\t'

def skipSpaces (cs : List Char) : List Char :=
  cs.dropWhile isSpace

def newline? : List Char → Option (List Char)
  | '\n' :: cs => some cs
  | '\r' :: '\n' :: cs => some cs
  | _ => none

/-- The characters that may stand in a comment, and in a string as themselves: the tab and what is
no control. -/
def isPlain (c : Char) : Bool :=
  c == '\t' || (0x20 ≤ c.toNat && c.toNat != 0x7F)

def skipLines : List Char → List Char
  | ' ' :: cs => skipLines cs
  | '\t' :: cs => skipLines cs
  | '\n' :: cs => skipLines cs
  | '\r' :: '\n' :: cs => skipLines cs
  | cs => cs

theorem length_skipLines_le (cs : List Char) : (skipLines cs).length ≤ cs.length := by
  fun_induction skipLines cs with
  | case5 => exact Nat.le_refl _
  | _ => simp only [List.length_cons]; omega

theorem length_skipSpaces_le (cs : List Char) : (skipSpaces cs).length ≤ cs.length :=
  (List.dropWhile_sublist isSpace).length_le

theorem length_lt_of_newline? {cs rest : List Char} (h : newline? cs = some rest) :
    rest.length < cs.length := by
  unfold newline? at h
  split at h
  · cases h; simp
  · cases h; simp only [List.length_cons]; omega
  · cases h

/-! ## Strings -/

/-- The character a backslash and one letter stand for. -/
def unescape? : Char → Option Char
  | '"' => some '"'
  | '\\' => some '\\'
  | 'b' => some '\x08'
  | 'f' => some '\x0c'
  | 'n' => some '\n'
  | 'r' => some '\r'
  | 't' => some '\t'
  | _ => none

def codePoint? (n : Nat) : Option Char :=
  if n < 0xD800 ∨ (0xDFFF < n ∧ n < 0x110000) then some (Char.ofNat n) else none

/-- The character that is escaped after a backslash, and the text after it. -/
def escaped? : List Char → Option (Char × List Char)
  | 'u' :: cs => do
    let digits := cs.take 4
    if digits.length < 4 then none
    else return (← codePoint? (← Hexadecimal.value? digits), cs.drop 4)
  | 'U' :: cs => do
    let digits := cs.take 8
    if digits.length < 8 then none
    else return (← codePoint? (← Hexadecimal.value? digits), cs.drop 8)
  | e :: cs => (unescape? e).map (·, cs)
  | [] => none

theorem length_lt_of_escaped? {cs rest : List Char} {c : Char}
    (h : escaped? cs = some (c, rest)) : rest.length < cs.length := by
  unfold escaped? at h
  split at h
  all_goals simp only [Option.bind_eq_bind, Option.pure_def, Option.map_eq_some_iff,
    Prod.mk.injEq, reduceCtorEq] at h
  · split at h
    · cases h
    · simp only [Option.bind_eq_some_iff, Option.some.injEq, Prod.mk.injEq] at h
      obtain ⟨_, _, _, _, _, rfl⟩ := h
      simp only [List.length_drop, List.length_cons]
      omega
  · split at h
    · cases h
    · simp only [Option.bind_eq_some_iff, Option.some.injEq, Prod.mk.injEq] at h
      obtain ⟨_, _, _, _, _, rfl⟩ := h
      simp only [List.length_drop, List.length_cons]
      omega
  · obtain ⟨_, _, _, rfl⟩ := h
    simp

/-- The rest of a string on one line, after its opening quote. -/
def basic? (cs : List Char) : Option (List Char × List Char) :=
  match cs with
  | [] => none
  | '"' :: cs => some ([], cs)
  | '\\' :: cs =>
    match h : escaped? cs with
    | none => none
    | some (c, rest) =>
      have := length_lt_of_escaped? h
      (basic? rest).map fun (s, rest) => (c :: s, rest)
  | c :: cs => if isPlain c then (basic? cs).map fun (s, cs) => (c :: s, cs) else none
termination_by cs.length
decreasing_by all_goals simp only [List.length_cons]; omega

/-- The end of a string over lines, in front of which up to two of its quotes may stand. -/
def closing? (quote : Char) (cs : List Char) : Option (List Char × List Char) :=
  let run := cs.takeWhile (· == quote)
  if run.length < 3 then none
  else
    let size := min run.length 5
    some (List.replicate (size - 3) quote, cs.drop size)

/-- The text after the blanks and ends of lines that a backslash at the end of a line takes
away. -/
def joinedLine? (cs : List Char) : Option (List Char) :=
  (newline? (skipSpaces cs)).map skipLines

theorem length_lt_of_joinedLine? {cs rest : List Char} (h : joinedLine? cs = some rest) :
    rest.length < cs.length := by
  obtain ⟨mid, hm, rfl⟩ := Option.map_eq_some_iff.1 h
  have := length_lt_of_newline? hm
  have := length_skipSpaces_le cs
  have := length_skipLines_le mid
  omega

/-- The rest of a string over lines. Ends of lines are kept as line feeds, except after a
backslash, where they go with the blanks around them. -/
def basicLines? (cs : List Char) : Option (List Char × List Char) :=
  match closing? '"' cs with
  | some done => some done
  | none => match cs with
    | [] => none
    | '\\' :: cs =>
      match h : joinedLine? cs with
      | some rest =>
        have := length_lt_of_joinedLine? h
        basicLines? rest
      | none => match h : escaped? cs with
        | none => none
        | some (c, rest) =>
          have := length_lt_of_escaped? h
          (basicLines? rest).map fun (s, rest) => (c :: s, rest)
    | '\n' :: cs => (basicLines? cs).map fun (s, cs) => ('\n' :: s, cs)
    | '\r' :: '\n' :: cs => (basicLines? cs).map fun (s, cs) => ('\n' :: s, cs)
    | c :: cs => if isPlain c then (basicLines? cs).map fun (s, cs) => (c :: s, cs) else none
termination_by cs.length
decreasing_by all_goals simp only [List.length_cons]; omega

/-- The rest of a string in apostrophes, in which nothing is escaped. -/
def literal? : List Char → Option (List Char × List Char)
  | [] => none
  | '\'' :: cs => some ([], cs)
  | c :: cs => if isPlain c then (literal? cs).map fun (s, cs) => (c :: s, cs) else none

/-- The rest of a string over lines in apostrophes. -/
def literalLines? (cs : List Char) : Option (List Char × List Char) :=
  match closing? '\'' cs with
  | some done => some done
  | none => match cs with
    | [] => none
    | '\n' :: cs => (literalLines? cs).map fun (s, cs) => ('\n' :: s, cs)
    | '\r' :: '\n' :: cs => (literalLines? cs).map fun (s, cs) => ('\n' :: s, cs)
    | c :: cs => if isPlain c then (literalLines? cs).map fun (s, cs) => (c :: s, cs) else none

/-- The text without an end of a line at its front, which does not belong to a string that starts
there. -/
def afterOpening (cs : List Char) : List Char :=
  (newline? cs).getD cs

/-- A string, of the form that its first quotes say. -/
def string? : List Char → Option (String × List Char)
  | '"' :: '"' :: '"' :: cs => done (basicLines? (afterOpening cs))
  | '"' :: cs => done (basic? cs)
  | '\'' :: '\'' :: '\'' :: cs => done (literalLines? (afterOpening cs))
  | '\'' :: cs => done (literal? cs)
  | _ => none
where
  /-- What was read, as text. -/
  done (read : Option (List Char × List Char)) : Option (String × List Char) :=
    read.map fun (s, cs) => (String.ofList s, cs)

/-! ## Keys -/

/-- The characters of a key without quotes. -/
def isBare (c : Char) : Bool :=
  c.isAlphanum || c == '_' || c == '-'

/-- One key: bare, or a string on one line. -/
def key? : List Char → Option (String × List Char)
  | '"' :: cs => string?.done (basic? cs)
  | '\'' :: cs => string?.done (literal? cs)
  | cs =>
    let run := cs.takeWhile isBare
    if run.isEmpty then none else some (String.ofList run, cs.dropWhile isBare)

/-- Keys with dots between them, and the blanks around each. The budget counts keys. -/
def keys? : Nat → List Char → Option (List String × List Char)
  | 0, _ => none
  | n + 1, cs => do
    let (key, cs) ← key? (skipSpaces cs)
    match skipSpaces cs with
    | '.' :: cs => (keys? n cs).map fun (keys, cs) => (key :: keys, cs)
    | cs => some ([key], cs)

/-- The number of keys that may be joined by dots, and of values that may stand inside one
another. -/
def maxDepth : Nat := 79

/-- A dotted key: the keys before the last one, and the last one. -/
def dottedKey? (cs : List Char) : Option ((List String × String) × List Char) := do
  let (keys, cs) ← keys? maxDepth cs
  let last ← keys.getLast?
  return ((keys.dropLast, last), cs)

/-! ## Numbers -/

/-- The digits at the front of a text, with single underscores between them left out. -/
def run (isDigit : Char → Bool) : List Char → List Char × List Char
  | '_' :: d :: cs =>
    if isDigit d then
      let (ds, rest) := run isDigit cs
      (d :: ds, rest)
    else ([], '_' :: d :: cs)
  | d :: cs =>
    if isDigit d then
      let (ds, rest) := run isDigit cs
      (d :: ds, rest)
    else ([], d :: cs)
  | [] => ([], [])

/-- At least one digit, the first of them without an underscore before it. -/
def run? (isDigit : Char → Bool) : List Char → Option (List Char × List Char)
  | d :: cs =>
    if isDigit d then
      let (ds, rest) := run isDigit cs
      some (d :: ds, rest)
    else none
  | [] => none

/-- An integer that sixty-four bits hold. -/
def ofInt? (n : Int) : Option Toml :=
  if Int64.minValue.toInt ≤ n ∧ n ≤ Int64.maxValue.toInt then some (.integer n) else none

/-- An integer in base two, eight or sixteen, after what says so. -/
def radix? (base : Nat) (isDigit : Char → Bool) (cs : List Char) : Option (Toml × List Char) := do
  let (ds, cs) ← run? isDigit cs
  let n := ds.foldl (fun n d => n * base + (Hexadecimal.worth? d).getD 0) 0
  return (← ofInt? n, cs)

/-- The sign at the front of a text, true for minus, and the text after it. -/
def sign : List Char → Bool × List Char
  | '+' :: cs => (false, cs)
  | '-' :: cs => (true, cs)
  | cs => (false, cs)

/-- The digits of the integer part: zero alone, or digits that do not start with zero. -/
def integerPart? : List Char → Option (List Char × List Char)
  | '0' :: cs => some (['0'], cs)
  | cs => run? Char.isDigit cs

def fractionPart? : List Char → Option (List Char × List Char)
  | '.' :: cs => run? Char.isDigit cs
  | _ => none

def exponentPart? (cs : List Char) : Option (Int × List Char) :=
  match cs with
  | [] => none
  | e :: cs =>
    if e = 'e' ∨ e = 'E' then
      let (negative, cs) := sign cs
      (run? Char.isDigit cs).map fun (ds, cs) =>
        (if negative then -(Decimal.value ds : Int) else Decimal.value ds, cs)
    else none

/-- The least number that rounds to infinity in sixty-four bits: half a unit above the greatest
finite one. -/
def overflow : Nat := Nat.pow 2 1024 - Nat.pow 2 970

/-- `mantissa` times ten to the `exponent` is not less than `overflow`. Numbers far from the bound
are told by how many digits they have. -/
def overflows (mantissa : Nat) (exponent : Int) : Bool :=
  let size : Int := (Decimal.write mantissa).length + exponent
  if mantissa = 0 || size ≤ 308 then false
  else if size > 310 then true
  else if 0 ≤ exponent then overflow ≤ mantissa * Nat.pow 10 exponent.toNat
  else overflow * Nat.pow 10 (-exponent).toNat ≤ mantissa

/-- A number with a fraction or an exponent; one that is too great is refused. -/
def ofDecimal? (negative : Bool) (digits fraction : List Char) (exponent : Int) : Option Toml :=
  if !negative && overflows (Decimal.value (digits ++ fraction)) (exponent - fraction.length) then
    none
  else some .float

def decimal? (cs : List Char) : Option (Toml × List Char) := do
  let (negative, cs) := sign cs
  let (digits, cs) ← integerPart? cs
  match exponentPart? cs with
  | some (e, cs) => return (← ofDecimal? negative digits [] e, cs)
  | none => match fractionPart? cs with
    | some (fraction, cs) => match exponentPart? cs with
      | some (e, cs) => return (← ofDecimal? negative digits fraction e, cs)
      | none => return (← ofDecimal? negative digits fraction 0, cs)
    | none =>
      let n : Int := Decimal.value digits
      return (← ofInt? (if negative then -n else n), cs)

/-- A number: in a base that is named, infinite, not a number, or in base ten. -/
def number? : List Char → Option (Toml × List Char)
  | '0' :: 'x' :: cs => radix? 16 (fun d => (Hexadecimal.worth? d).isSome) cs
  | '0' :: 'o' :: cs => radix? 8 (fun d => '0' ≤ d && d ≤ '7') cs
  | '0' :: 'b' :: cs => radix? 2 (fun d => d == '0' || d == '1') cs
  | cs => match (sign cs).2 with
    | 'i' :: 'n' :: 'f' :: rest => some (.float, rest)
    | 'n' :: 'a' :: 'n' :: rest => some (.float, rest)
    | _ => decimal? cs

/-! ## Dates and times -/

def field? (n low high : Nat) (cs : List Char) : Option (Nat × List Char) :=
  let ds := cs.take n
  let value := Decimal.value ds
  if ds.length = n ∧ ds.all Char.isDigit ∧ low ≤ value ∧ value ≤ high then some (value, cs.drop n)
  else none

def past? (c : Char) : List Char → Option (List Char)
  | d :: cs => if d = c then some cs else none
  | [] => none

def daysIn (year month : Nat) : Nat :=
  if month = 2 then
    if year % 4 = 0 ∧ (year % 100 ≠ 0 ∨ year % 400 = 0) then 29 else 28
  else if month = 4 ∨ month = 6 ∨ month = 9 ∨ month = 11 then 30
  else 31

def date? (cs : List Char) : Option (List Char) := do
  let (year, cs) ← field? 4 0 9999 cs
  let cs ← past? '-' cs
  let (month, cs) ← field? 2 1 12 cs
  let cs ← past? '-' cs
  let (_, cs) ← field? 2 1 (daysIn year month) cs
  return cs

/-- The text after the fraction of a second, if one is there. -/
def afterFraction : List Char → List Char
  | '.' :: d :: cs => if d.isDigit then cs.dropWhile Char.isDigit else '.' :: d :: cs
  | cs => cs

/-- The text after a time of day; a second may be a leap second. -/
def time? (cs : List Char) : Option (List Char) := do
  let (_, cs) ← field? 2 0 23 cs
  let cs ← past? ':' cs
  let (_, cs) ← field? 2 0 59 cs
  let cs ← past? ':' cs
  let (_, cs) ← field? 2 0 60 cs
  return afterFraction cs

/-- The text after an offset from universal time, if one is there. -/
def afterOffset? : List Char → Option (List Char)
  | 'Z' :: cs => some cs
  | 'z' :: cs => some cs
  | s :: cs =>
    if s = '+' ∨ s = '-' then do
      let (_, cs) ← field? 2 0 23 cs
      let cs ← past? ':' cs
      let (_, cs) ← field? 2 0 59 cs
      return cs
    else some (s :: cs)
  | [] => some []

/-- A date with or without a time of day, or a time of day. -/
def moment? (cs : List Char) : Option (Toml × List Char) := do
  match date? cs with
  | none => return (.moment, ← time? cs)
  | some rest => match rest with
    | t :: after =>
      if t = 'T' ∨ t = 't' ∨ t = ' ' then
        match time? after with
        | some after => return (.moment, ← afterOffset? after)
        | none => return (.moment, rest)
      else return (.moment, rest)
    | [] => return (.moment, rest)

end ModuleGraph.Toml
