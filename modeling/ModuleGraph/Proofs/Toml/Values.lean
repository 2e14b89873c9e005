import ModuleGraph.Proofs.Text.Run
import ModuleGraph.Toml.Document

/-!
# The values of settings in TOML

`ValueWritten` says which texts spell an array of strings, a natural number or a truth value: the
strings on one line in quotes, with whatever escapes; the array over as many lines as it takes, with
comments; the number in any base, with underscores. What is proved is `value?_append`: each of these
texts is read as the value, if what follows may follow a value on its line (`AfterValue`).

Numbers are read in one go by `run`, so a relation of its own says which digits a text spells
(`More`); the items of an array are spelled up to and with the closing bracket, as they are read.
-/

namespace ModuleGraph.Toml

open Text

/-! ## Layout -/

/-- Nothing but spaces and tabs. -/
def Spaces (cs : List Char) : Prop :=
  ∀ c ∈ cs, isSpace c = true

/-- Nothing but what may stand in a comment. -/
def Plain (cs : List Char) : Prop :=
  ∀ c ∈ cs, isPlain c = true

/-- The end of a line. -/
inductive Newline : List Char → Prop
  | lf : Newline ['\n']
  | crlf : Newline ['\r', '\n']

/-- What may stand between the items of an array: blanks, ends of lines, and comments. -/
inductive Layout : List Char → Prop
  | nil : Layout []
  | space {c : Char} {cs : List Char} : isSpace c = true → Layout cs → Layout (c :: cs)
  | newline {nl cs : List Char} : Newline nl → Layout cs → Layout (nl ++ cs)
  | comment {words nl cs : List Char} : Plain words → Newline nl → Layout cs →
      Layout ('#' :: (words ++ (nl ++ cs)))

/-- A blank, the start of a comment, or a part of the end of a line. -/
def isLayout (c : Char) : Bool :=
  isSpace c || c == '#' || c == '\n' || c == '\r'

/-! ## Strings -/

/-- The spellings of a string between its quotes. -/
inductive BasicWritten : List Char → List Char → Prop
  | nil : BasicWritten [] []
  | plain {c : Char} {s cs : List Char} : isPlain c = true → c ≠ '"' → c ≠ '\\' →
      BasicWritten s cs → BasicWritten (c :: s) (c :: cs)
  | escaped {e c : Char} {s cs : List Char} : unescape? e = some c → BasicWritten s cs →
      BasicWritten (c :: s) ('\\' :: e :: cs)
  | short {digits : List Char} {n : Nat} {c : Char} {s cs : List Char} : digits.length = 4 →
      Hexadecimal.value? digits = some n → codePoint? n = some c → BasicWritten s cs →
      BasicWritten (c :: s) ('\\' :: 'u' :: (digits ++ cs))
  | long {digits : List Char} {n : Nat} {c : Char} {s cs : List Char} : digits.length = 8 →
      Hexadecimal.value? digits = some n → codePoint? n = some c → BasicWritten s cs →
      BasicWritten (c :: s) ('\\' :: 'U' :: (digits ++ cs))

/-- The spellings of the items of an array, up to and with its closing bracket. -/
inductive ItemsWritten : List String → List Char → Prop
  | nil : ItemsWritten [] [']']
  | last {s : String} {cs l : List Char} : BasicWritten s.toList cs → Layout l →
      ItemsWritten [s] ('"' :: (cs ++ '"' :: (l ++ [']'])))
  | cons {s : String} {cs l l' tail : List Char} {items : List String} :
      BasicWritten s.toList cs → Layout l → Layout l' → ItemsWritten items tail →
      ItemsWritten (s :: items) ('"' :: (cs ++ '"' :: (l ++ ',' :: (l' ++ tail))))

/-! ## Numbers -/

/-- The spellings of further digits, with an underscore in front of any of them. -/
inductive More (isDigit : Char → Bool) : List Char → List Char → Prop
  | nil : More isDigit [] []
  | digit {d : Char} {ds cs : List Char} : isDigit d = true → More isDigit ds cs →
      More isDigit (d :: ds) (d :: cs)
  | underscore {d : Char} {ds cs : List Char} : isDigit d = true → More isDigit ds cs →
      More isDigit (d :: ds) ('_' :: d :: cs)

/-- The bases that a number may name, each with its letter and its digits. -/
inductive Radix : Nat → Char → (Char → Bool) → Prop
  | hexadecimal : Radix 16 'x' fun d => (Hexadecimal.worth? d).isSome
  | octal : Radix 8 'o' fun d => '0' ≤ d && d ≤ '7'
  | binary : Radix 2 'b' fun d => d == '0' || d == '1'

/-- What digits are worth in a base. -/
def valueIn (base : Nat) (digits : List Char) : Nat :=
  digits.foldl (fun n d => n * base + (Hexadecimal.worth? d).getD 0) 0

/-- The spellings of a natural number in base ten without its sign. -/
inductive DecimalWritten : Nat → List Char → Prop
  | zero : DecimalWritten 0 ['0']
  | digits {d : Char} {ds cs : List Char} : d.isDigit = true → d ≠ '0' →
      More Char.isDigit ds cs → DecimalWritten (Decimal.value (d :: ds)) (d :: cs)

/-- The spellings of a natural number. -/
inductive NatWritten : Nat → List Char → Prop
  | decimal {n : Nat} {cs : List Char} : DecimalWritten n cs → NatWritten n cs
  | plus {n : Nat} {cs : List Char} : DecimalWritten n cs → NatWritten n ('+' :: cs)
  | minusZero : NatWritten 0 ['-', '0']
  | radix {base : Nat} {letter d : Char} {isDigit : Char → Bool} {ds cs : List Char} :
      Radix base letter isDigit → isDigit d = true → More isDigit ds cs →
      NatWritten (valueIn base (d :: ds)) ('0' :: letter :: d :: cs)

/-! ## Values -/

/-- The least natural number that sixty-four bits do not hold with a sign. -/
def natBound : Nat :=
  Nat.pow 2 63

/-- The spellings of an array of strings, of a natural number that sixty-four bits hold with its
sign, and of a truth value. -/
inductive ValueWritten : Toml → List Char → Prop
  | strings {items : List String} {l cs : List Char} : Layout l → ItemsWritten items cs →
      ValueWritten (.array (items.map .string)) ('[' :: (l ++ cs))
  | nat {n : Nat} {cs : List Char} : n < natBound → NatWritten n cs → ValueWritten (.integer n) cs
  | true : ValueWritten (.boolean true) ['t', 'r', 'u', 'e']
  | false : ValueWritten (.boolean false) ['f', 'a', 'l', 's', 'e']

/-! ## Layout is passed over -/

theorem skipSpaces_append {s cs : List Char} (hs : Spaces s) (hcs : Stops isSpace cs) :
    skipSpaces (s ++ cs) = cs :=
  dropWhile_append_of_stops hs hcs

theorem newline?_append {nl : List Char} (h : Newline nl) (cs : List Char) :
    newline? (nl ++ cs) = some cs := by
  cases h with
  | lf => rfl
  | crlf => rfl

theorem layout?_newline {nl : List Char} (h : Newline nl) (inComment : Bool) (cs : List Char) :
    layout? inComment (nl ++ cs) = layout? false cs := by
  cases h with
  | lf => rfl
  | crlf => rfl

theorem layout?_cons {c : Char} (hlf : c ≠ '\n') (hcr : c ≠ '\r') (inComment : Bool)
    (cs : List Char) : layout? inComment (c :: cs) =
      if inComment then (if isPlain c then layout? true cs else none)
      else if isSpace c then layout? false cs
      else if c = '#' then layout? true cs
      else some (c :: cs) := by
  rw [layout?]
  · exact hlf
  · exact fun _ heq _ => hcr heq

theorem not_newline_of_isPlain {c : Char} (h : isPlain c = true) : c ≠ '\n' ∧ c ≠ '\r' := by
  constructor
  · rintro rfl
    exact absurd h (by decide)
  · rintro rfl
    exact absurd h (by decide)

/-- A comment goes on for as long as its line does. -/
theorem layout?_comment {words nl : List Char} (hwords : Plain words) (hnl : Newline nl)
    (cs : List Char) : layout? true (words ++ (nl ++ cs)) = layout? false cs := by
  induction words with
  | nil => exact layout?_newline hnl true cs
  | cons c words ih =>
      obtain ⟨hc, hrest⟩ := List.forall_mem_cons.1 hwords
      obtain ⟨hlf, hcr⟩ := not_newline_of_isPlain hc
      rw [List.cons_append, layout?_cons hlf hcr, if_pos rfl, if_pos hc, ih hrest]

theorem layout?_of_stops {cs : List Char} (h : Stops isLayout cs) : layout? false cs = some cs := by
  cases cs with
  | nil => rfl
  | cons c cs =>
      have hc := stops_cons.1 h
      simp only [isLayout, Bool.or_eq_false_iff, beq_eq_false_iff_ne] at hc
      obtain ⟨⟨⟨hspace, hhash⟩, hlf⟩, hcr⟩ := hc
      rw [layout?_cons hlf hcr, if_neg Bool.false_ne_true, hspace, if_neg Bool.false_ne_true,
        if_neg hhash]

theorem layout?_append {l cs : List Char} (hl : Layout l) (h : Stops isLayout cs) :
    layout? false (l ++ cs) = some cs := by
  induction hl with
  | nil => exact layout?_of_stops h
  | @space c l hc _ ih =>
      have hlf : c ≠ '\n' := by
        rintro rfl
        cases hc
      have hcr : c ≠ '\r' := by
        rintro rfl
        cases hc
      rw [List.cons_append, layout?_cons hlf hcr, if_neg Bool.false_ne_true, if_pos hc, ih]
  | newline hnl _ ih => rw [List.append_assoc, layout?_newline hnl, ih]
  | @comment words nl l hwords hnl _ ih =>
      have hhash : ∀ tail, layout? false ('#' :: tail) = layout? true tail := fun _ => rfl
      rw [List.cons_append, hhash, List.append_assoc, List.append_assoc,
        layout?_comment hwords hnl, ih]

/-! ## Strings are read -/

theorem escaped?_letter {e c : Char} (h : unescape? e = some c) (cs : List Char) :
    escaped? (e :: cs) = some (c, cs) := by
  rw [escaped?, h]
  · rfl
  · rintro rfl
    cases h
  · rintro rfl
    cases h

theorem escaped?_short {digits : List Char} {n : Nat} {c : Char} (hlength : digits.length = 4)
    (hvalue : Hexadecimal.value? digits = some n) (hc : codePoint? n = some c) (cs : List Char) :
    escaped? ('u' :: (digits ++ cs)) = some (c, cs) := by
  have htake : (digits ++ cs).take 4 = digits := List.take_left' hlength
  have hdrop : (digits ++ cs).drop 4 = cs := List.drop_left' hlength
  simp [escaped?, htake, hdrop, hlength, hvalue, hc]

theorem escaped?_long {digits : List Char} {n : Nat} {c : Char} (hlength : digits.length = 8)
    (hvalue : Hexadecimal.value? digits = some n) (hc : codePoint? n = some c) (cs : List Char) :
    escaped? ('U' :: (digits ++ cs)) = some (c, cs) := by
  have htake : (digits ++ cs).take 8 = digits := List.take_left' hlength
  have hdrop : (digits ++ cs).drop 8 = cs := List.drop_left' hlength
  simp [escaped?, htake, hdrop, hlength, hvalue, hc]

theorem basic?_plain {c : Char} (hplain : isPlain c = true) (hquote : c ≠ '"')
    (hbackslash : c ≠ '\\') (cs : List Char) :
    basic? (c :: cs) = (basic? cs).map fun (s, cs) => (c :: s, cs) := by
  rw [basic?, if_pos hplain]
  · exact hquote
  · exact hbackslash

theorem basic?_escaped {c : Char} {cs rest : List Char} (h : escaped? cs = some (c, rest)) :
    basic? ('\\' :: cs) = (basic? rest).map fun (s, cs) => (c :: s, cs) := by
  rw [basic?]
  split
  · next hnone => cases h.symm.trans hnone
  · next hsome =>
    cases h.symm.trans hsome
    rfl

theorem basic?_append {s cs : List Char} (h : BasicWritten s cs) (rest : List Char) :
    basic? (cs ++ '"' :: rest) = some (s, rest) := by
  induction h with
  | nil =>
      rw [List.nil_append, basic?]
  | plain hplain hquote hbackslash _ ih =>
      rw [List.cons_append, basic?_plain hplain hquote hbackslash, ih]
      rfl
  | escaped he _ ih =>
      rw [List.cons_append, List.cons_append, basic?_escaped (escaped?_letter he _), ih]
      rfl
  | short hlength hvalue hc _ ih =>
      rw [List.cons_append, List.cons_append, List.append_assoc,
        basic?_escaped (escaped?_short hlength hvalue hc _), ih]
      rfl
  | long hlength hvalue hc _ ih =>
      rw [List.cons_append, List.cons_append, List.append_assoc,
        basic?_escaped (escaped?_long hlength hvalue hc _), ih]
      rfl

theorem BasicWritten.head?_ne {s cs : List Char} (h : BasicWritten s cs) :
    cs.head? ≠ some '"' := by
  cases h with
  | nil => exact (nofun)
  | plain _ hquote _ _ => exact fun heq => hquote (Option.some.inj heq)
  | escaped _ _ => exact (nofun)
  | short _ _ _ _ => exact (nofun)
  | long _ _ _ _ => exact (nofun)

/-- The first character between the quotes is no quote, so the string is on one line, unless
nothing is between the quotes and a quote follows. -/
theorem string?_append {s : String} {cs rest : List Char} (h : BasicWritten s.toList cs)
    (hrest : Stops (· == '"') rest) : string? ('"' :: (cs ++ '"' :: rest)) = some (s, rest) := by
  rw [string?]
  · rw [basic?_append h rest, string?.done, Option.map_some]
    exact congrArg (fun s => some (s, rest)) String.ofList_toList
  · intro tail heq
    cases cs with
    | nil =>
        cases heq
        exact absurd (stops_cons.1 hrest) (by decide)
    | cons c cs =>
        obtain ⟨rfl, -⟩ := List.cons.inj heq
        exact h.head?_ne rfl

/-! ## Arrays are read -/

/-- A value that starts neither an array nor a table is read by itself, at any depth. -/
theorem value?_scalar {c : Char} (harray : c ≠ '[') (htable : c ≠ '\x7b') (budget depth : Nat)
    (cs : List Char) : value? (budget + 1) depth (c :: cs) = scalar? (c :: cs) := by
  cases depth with
  | zero => rw [value?]
  | succ depth =>
      rw [value?]
      · exact fun _ heq => harray (List.cons.inj heq).1
      · exact fun _ heq => htable (List.cons.inj heq).1

theorem value?_string {s : String} {cs rest : List Char} (h : BasicWritten s.toList cs)
    (hrest : Stops (· == '"') rest) (budget depth : Nat) :
    value? (budget + 1) depth ('"' :: (cs ++ '"' :: rest)) = some (.string s, rest) := by
  rw [value?_scalar (by decide) (by decide), scalar?, string?_append h hrest]
  rfl

/-- What follows a string in an array is layout, a comma or the closing bracket. -/
theorem Layout.stops_quote {l cs : List Char} (hl : Layout l) (h : Stops (· == '"') cs) :
    Stops (· == '"') (l ++ cs) := by
  cases hl with
  | nil => exact h
  | space hc _ =>
      refine stops_cons.2 (beq_eq_false_iff_ne.2 ?_)
      rintro rfl
      cases hc
  | newline hnl _ => cases hnl with
    | lf => exact stops_cons.2 rfl
    | crlf => exact stops_cons.2 rfl
  | comment _ _ _ => exact stops_cons.2 rfl

theorem ItemsWritten.stops_isLayout {items : List String} {cs : List Char}
    (h : ItemsWritten items cs) (rest : List Char) : Stops isLayout (cs ++ rest) := by
  cases h with
  | nil => exact stops_cons.2 rfl
  | last _ _ => exact stops_cons.2 rfl
  | cons _ _ _ _ => exact stops_cons.2 rfl

theorem ItemsWritten.length_lt {items : List String} {cs : List Char} (h : ItemsWritten items cs) :
    items.length < cs.length := by
  induction h with
  | nil => exact Nat.one_pos
  | last _ _ =>
      simp only [List.length_cons, List.length_append, List.length_nil]
      omega
  | cons _ _ _ _ ih =>
      simp only [List.length_cons, List.length_append]
      omega

theorem items?_string_last {s : String} {cs l : List Char} (hs : BasicWritten s.toList cs)
    (hl : Layout l) (budget depth : Nat) (rest : List Char) :
    items? (budget + 2) depth ('"' :: (cs ++ '"' :: (l ++ ']' :: rest))) =
      some ([.string s], rest) := by
  have hquote : Stops (· == '"') (']' :: rest) := stops_cons.2 rfl
  have hvalue := value?_string hs (hl.stops_quote hquote) budget depth
  have hclose := layout?_append hl (stops_cons.2 rfl : Stops isLayout (']' :: rest))
  rw [items?, hvalue]
  · simp only [Option.bind_eq_bind, Option.bind_some, hclose]
  · exact (nofun)

theorem items?_string_cons {s : String} {cs l l' next after : List Char} {items : List Toml}
    (hs : BasicWritten s.toList cs) (hl : Layout l) (hl' : Layout l')
    (hnext : Stops isLayout next) {budget depth : Nat}
    (hitems : items? (budget + 1) depth next = some (items, after)) :
    items? (budget + 2) depth ('"' :: (cs ++ '"' :: (l ++ ',' :: (l' ++ next)))) =
      some (.string s :: items, after) := by
  have hquote : Stops (· == '"') (',' :: (l' ++ next)) := stops_cons.2 rfl
  have hvalue := value?_string hs (hl.stops_quote hquote) budget depth
  have hcomma := layout?_append hl (stops_cons.2 rfl : Stops isLayout (',' :: (l' ++ next)))
  rw [items?, hvalue]
  · simp only [Option.bind_eq_bind, Option.bind_some, hcomma, layout?_append hl' hnext, hitems]
    rfl
  · exact (nofun)

/-- The budget is for the items and the end of the array. -/
theorem items?_append {items : List String} {cs : List Char} (h : ItemsWritten items cs)
    {budget : Nat} (hbudget : items.length < budget) (depth : Nat) (rest : List Char) :
    items? budget depth (cs ++ rest) = some (items.map .string, rest) := by
  induction h generalizing budget with
  | nil =>
      obtain ⟨budget, rfl⟩ := Nat.exists_eq_succ_of_ne_zero (Nat.ne_zero_of_lt hbudget)
      rw [List.singleton_append, items?]
      rfl
  | @last s cs l hs hl =>
      obtain ⟨budget, rfl⟩ := Nat.exists_eq_add_of_le' (Nat.succ_le_of_lt hbudget)
      have hread := items?_string_last hs hl budget depth rest
      simp only [List.cons_append, List.append_assoc, List.nil_append]
      exact hread
  | @cons s cs l l' tail items hs hl hl' hitems ih =>
      obtain ⟨budget, rfl⟩ := Nat.exists_eq_add_of_le' (Nat.succ_le_of_lt hbudget)
      have hrest := @ih (budget + items.length + 1) (by omega)
      have hread := items?_string_cons hs hl hl' (hitems.stops_isLayout rest) hrest
      simp only [List.cons_append, List.append_assoc]
      exact hread

theorem value?_strings {items : List String} {l cs : List Char} (hl : Layout l)
    (h : ItemsWritten items cs) {budget : Nat} (hbudget : items.length + 1 < budget) (depth : Nat)
    (rest : List Char) :
    value? budget (depth + 1) ('[' :: (l ++ (cs ++ rest))) =
      some (.array (items.map .string), rest) := by
  obtain ⟨budget, rfl⟩ := Nat.exists_eq_succ_of_ne_zero (Nat.ne_zero_of_lt hbudget)
  have hitems := items?_append h (Nat.lt_of_succ_lt_succ hbudget) depth rest
  rw [value?, layout?_append hl (h.stops_isLayout rest)]
  simp only [Option.bind_eq_bind, Option.bind_some, hitems]
  rfl

/-! ## Numbers are read -/

/-- A value ends where its text does, or before a blank, a comment or the end of the line. -/
def AfterValue (cs : List Char) : Prop :=
  ∀ c ∈ cs.head?, isLayout c = true

theorem AfterValue.stops {p : Char → Bool} {cs : List Char} (h : AfterValue cs)
    (hp : p ' ' = false ∧ p '\t' = false ∧ p '#' = false ∧ p '\n' = false ∧ p '\r' = false) :
    Stops p cs := by
  obtain ⟨hspace, htab, hhash, hlf, hcr⟩ := hp
  intro c hc
  have hlayout := h c hc
  simp only [isLayout, isSpace, Bool.or_eq_true, beq_iff_eq] at hlayout
  rcases hlayout with (((rfl | rfl) | rfl) | rfl) | rfl
  · exact hspace
  · exact htab
  · exact hhash
  · exact hlf
  · exact hcr

theorem run_cons {isDigit : Char → Bool} {d : Char} (hd : d ≠ '_') (cs : List Char) :
    run isDigit (d :: cs) =
      if isDigit d then (d :: (run isDigit cs).1, (run isDigit cs).2) else ([], d :: cs) := by
  rw [run]
  exact fun _ _ heq _ => hd heq

theorem run_of_stops {isDigit : Char → Bool} {rest : List Char} (hdigit : Stops isDigit rest)
    (hunderscore : Stops (· == '_') rest) : run isDigit rest = ([], rest) := by
  cases rest with
  | nil => rfl
  | cons c rest =>
      have hc := stops_cons.1 hunderscore
      rw [run_cons (beq_eq_false_iff_ne.1 hc), stops_cons.1 hdigit, if_neg Bool.false_ne_true]

theorem run_append {isDigit : Char → Bool} {ds cs rest : List Char} (h : More isDigit ds cs)
    (hnot : isDigit '_' = false) (hdigit : Stops isDigit rest)
    (hunderscore : Stops (· == '_') rest) : run isDigit (cs ++ rest) = (ds, rest) := by
  induction h with
  | nil => exact run_of_stops hdigit hunderscore
  | @digit d _ _ hd _ ih =>
      have hne : d ≠ '_' := by
        rintro rfl
        cases hnot.symm.trans hd
      rw [List.cons_append, run_cons hne, if_pos hd, ih]
  | underscore hd _ ih =>
      rw [List.cons_append, List.cons_append, run, if_pos hd, ih]

theorem run?_append {isDigit : Char → Bool} {d : Char} {ds cs rest : List Char}
    (hd : isDigit d = true) (h : More isDigit ds cs) (hnot : isDigit '_' = false)
    (hdigit : Stops isDigit rest) (hunderscore : Stops (· == '_') rest) :
    run? isDigit (d :: (cs ++ rest)) = some (d :: ds, rest) := by
  rw [run?, if_pos hd, run_append h hnot hdigit hunderscore]

theorem ofInt?_natCast {n : Nat} (h : n < natBound) : ofInt? n = some (.integer n) := by
  have hlow : Int64.minValue.toInt = -0x8000000000000000 := by decide
  have hhigh : Int64.maxValue.toInt = 0x7FFFFFFFFFFFFFFF := by decide
  have hbound : natBound = 0x8000000000000000 := by decide
  rw [ofInt?, hlow, hhigh, if_pos]
  omega

variable {n : Nat} {cs rest : List Char}

/-! ### In a base that is named -/

theorem radix?_append {base : Nat} {letter d : Char} {isDigit : Char → Bool} {ds : List Char}
    (hradix : Radix base letter isDigit) (hd : isDigit d = true) (h : More isDigit ds cs)
    (hbound : valueIn base (d :: ds) < natBound) (hrest : AfterValue rest) :
    radix? base isDigit (d :: (cs ++ rest)) =
      some (.integer (valueIn base (d :: ds)), rest) := by
  have hnot : isDigit '_' = false := by
    cases hradix <;> decide
  have hdigit : Stops isDigit rest := hrest.stops (by cases hradix <;> decide)
  have hunderscore : Stops (· == '_') rest := hrest.stops (by decide)
  rw [radix?, run?_append hd h hnot hdigit hunderscore]
  have hvalue := ofInt?_natCast hbound
  rw [valueIn] at hvalue
  simp only [Option.bind_eq_bind, Option.bind_some, hvalue]
  rfl

/-! ### In base ten -/

/-- A number in base ten begins with a digit. -/
theorem DecimalWritten.exists_eq_cons (h : DecimalWritten n cs) :
    ∃ d tail, cs = d :: tail ∧ d.isDigit = true := by
  cases h with
  | zero => exact ⟨'0', [], rfl, rfl⟩
  | digits hd _ _ => exact ⟨_, _, rfl, hd⟩

theorem integerPart?_append (h : DecimalWritten n cs) (hrest : AfterValue rest) :
    ∃ digits, integerPart? (cs ++ rest) = some (digits, rest) ∧ Decimal.value digits = n := by
  cases h with
  | zero => exact ⟨['0'], rfl, rfl⟩
  | @digits d ds cs hd hzero hmore =>
      refine ⟨d :: ds, ?_, rfl⟩
      rw [List.cons_append, integerPart?]
      · exact run?_append hd hmore (by decide) (hrest.stops (by decide)) (hrest.stops (by decide))
      · exact fun _ heq => hzero (List.cons.inj heq).1

theorem exponentPart?_of_afterValue (h : AfterValue rest) : exponentPart? rest = none := by
  cases rest with
  | nil => rfl
  | cons e rest =>
      have hsmall := stops_cons.1 (h.stops (p := (· == 'e')) (by decide))
      have hlarge := stops_cons.1 (h.stops (p := (· == 'E')) (by decide))
      rw [exponentPart?, if_neg]
      exact not_or.2 ⟨beq_eq_false_iff_ne.1 hsmall, beq_eq_false_iff_ne.1 hlarge⟩

theorem fractionPart?_of_afterValue (h : AfterValue rest) : fractionPart? rest = none := by
  rw [fractionPart?]
  rintro _ rfl
  have hpoint := stops_cons.1 (h.stops (p := (· == '.')) (by decide))
  cases hpoint

/-- An integer in base ten, after its sign. Only zero has a minus here. -/
theorem decimal?_append {negative : Bool} {signed : List Char} (h : DecimalWritten n cs)
    (hsign : sign signed = (negative, cs ++ rest)) (hminus : negative = true → n = 0)
    (hbound : n < natBound) (hrest : AfterValue rest) :
    decimal? signed = some (.integer n, rest) := by
  obtain ⟨digits, hdigits, rfl⟩ := integerPart?_append h hrest
  have hvalue : (if negative then -(Decimal.value digits : Int) else Decimal.value digits) =
      (Decimal.value digits : Int) := by
    cases negative with
    | false => rfl
    | true =>
        rw [hminus rfl]
        rfl
  rw [decimal?, hsign]
  simp only [Option.bind_eq_bind, hdigits, Option.bind_some, exponentPart?_of_afterValue hrest,
    fractionPart?_of_afterValue hrest, hvalue, ofInt?_natCast hbound]
  rfl

/-- A number that neither names a base nor is one of the two words. -/
theorem number?_decimal {d : Char} {tail signed : List Char} {negative : Bool}
    (hsign : sign signed = (negative, d :: tail)) (hd : d.isDigit = true)
    (hradix : ∀ c ∈ ['x', 'o', 'b'], ∀ more, signed ≠ '0' :: c :: more) :
    number? signed = decimal? signed := by
  rw [number?]
  · simp only [hsign]
    split
    · next heq =>
      cases heq
      cases hd
    · next heq =>
      cases heq
      cases hd
    · rfl
  · exact fun more heq => hradix 'x' (by simp) more heq
  · exact fun more heq => hradix 'o' (by simp) more heq
  · exact fun more heq => hradix 'b' (by simp) more heq

theorem DecimalWritten.ne_radix (h : DecimalWritten n cs) (hrest : AfterValue rest) {c : Char}
    (hc : c ∈ ['x', 'o', 'b']) (more : List Char) : cs ++ rest ≠ '0' :: c :: more := by
  intro heq
  cases h with
  | zero =>
      cases heq
      have hstops := stops_cons.1 (hrest.stops (p := fun d => d ∈ ['x', 'o', 'b']) (by decide))
      exact of_decide_eq_false hstops hc
  | digits _ hzero _ => exact hzero (List.cons.inj heq).1

theorem number?_append (h : NatWritten n cs) (hbound : n < natBound) (hrest : AfterValue rest) :
    number? (cs ++ rest) = some (.integer n, rest) := by
  cases h with
  | decimal h =>
      obtain ⟨d, tail, rfl, hd⟩ := h.exists_eq_cons
      have hsign : sign (d :: tail ++ rest) = (false, d :: tail ++ rest) := by
        rw [List.cons_append, sign]
        · rintro _ heq
          cases heq
          cases hd
        · rintro _ heq
          cases heq
          cases hd
      rw [number?_decimal hsign hd fun c hc more => h.ne_radix hrest hc more]
      exact decimal?_append h hsign (nofun) hbound hrest
  | plus h =>
      obtain ⟨d, tail, rfl, hd⟩ := h.exists_eq_cons
      rw [List.cons_append, number?_decimal (d := d) rfl hd (by simp)]
      exact decimal?_append h rfl (nofun) hbound hrest
  | minusZero =>
      rw [List.cons_append, List.singleton_append, number?_decimal (d := '0') rfl rfl (by simp)]
      exact decimal?_append .zero rfl (fun _ => rfl) hbound hrest
  | radix hradix hd hmore =>
      have hnumber := radix?_append hradix hd hmore hbound hrest
      cases hradix <;> exact hnumber

/-! ### Not a date

A year is followed by a minus, and an hour by a colon. -/

theorem startsMoment_eq_false (digits : List Char) {tail : List Char}
    (hdigits : ∀ c ∈ digits, c.isDigit = true) (htail : Stops Char.isDigit tail)
    (hnext : digits = [] ∨ Stops (fun c => c == '-' || c == ':') tail) :
    startsMoment (digits ++ tail) = false := by
  have hrun : (digits ++ tail).takeWhile Char.isDigit = digits :=
    takeWhile_append_of_stops hdigits htail
  have hat : (digits ++ tail)[digits.length]? = tail.head? := by
    rw [List.getElem?_append_right (Nat.le_refl _), Nat.sub_self, List.head?_eq_getElem?]
  rcases hnext with rfl | hnext
  · rw [List.nil_append] at hrun
    simp [startsMoment, hrun]
  · have hminus : tail.head? ≠ some '-' := fun heq => by cases hnext _ heq
    have hcolon : tail.head? ≠ some ':' := fun heq => by cases hnext _ heq
    simp only [startsMoment, hrun, Bool.or_eq_false_iff, Bool.and_eq_false_iff,
      beq_eq_false_iff_ne]
    constructor
    · by_cases hfour : digits.length = 4
      · exact Or.inr (hfour ▸ hat ▸ hminus)
      · exact Or.inl hfour
    · by_cases htwo : digits.length = 2
      · exact Or.inr (htwo ▸ hat ▸ hcolon)
      · exact Or.inl htwo

/-- The first digits of a number, and what follows them: an underscore, or what follows the
number. -/
theorem More.exists_eq_append {ds : List Char} (h : More Char.isDigit ds cs)
    (hrest : AfterValue rest) : ∃ digits tail, cs ++ rest = digits ++ tail ∧
      (∀ c ∈ digits, c.isDigit = true) ∧ Stops Char.isDigit tail ∧
      Stops (fun c => c == '-' || c == ':') tail := by
  induction h with
  | nil =>
      exact ⟨[], rest, rfl, fun _ h => absurd h List.not_mem_nil, hrest.stops (by decide),
        hrest.stops (by decide)⟩
  | @digit d _ cs hd _ ih =>
      obtain ⟨digits, tail, heq, hdigits, hstops, hnext⟩ := ih
      refine ⟨d :: digits, tail, ?_, List.forall_mem_cons.2 ⟨hd, hdigits⟩, hstops, hnext⟩
      rw [List.cons_append, heq, List.cons_append]
  | @underscore d _ cs hd _ _ =>
      refine ⟨[], '_' :: d :: (cs ++ rest), rfl, fun _ h => absurd h List.not_mem_nil, ?_, ?_⟩
      · exact stops_cons.2 rfl
      · exact stops_cons.2 rfl

theorem DecimalWritten.startsMoment (h : DecimalWritten n cs) (hrest : AfterValue rest) :
    startsMoment (cs ++ rest) = false := by
  cases h with
  | zero =>
      exact startsMoment_eq_false ['0'] (by simp) (hrest.stops (by decide))
        (Or.inr (hrest.stops (by decide)))
  | @digits d _ cs hd _ hmore =>
      obtain ⟨digits, tail, heq, hdigits, hstops, hnext⟩ := hmore.exists_eq_append hrest
      rw [List.cons_append, heq, ← List.cons_append]
      exact startsMoment_eq_false _ (List.forall_mem_cons.2 ⟨hd, hdigits⟩) hstops (Or.inr hnext)

theorem NatWritten.startsMoment (h : NatWritten n cs) (hrest : AfterValue rest) :
    startsMoment (cs ++ rest) = false := by
  have hnone : ∀ c ∈ ([] : List Char), c.isDigit = true := fun _ h => absurd h List.not_mem_nil
  cases h with
  | decimal h => exact h.startsMoment hrest
  | plus h => exact startsMoment_eq_false [] hnone (stops_cons.2 rfl) (Or.inl rfl)
  | minusZero => exact startsMoment_eq_false [] hnone (stops_cons.2 rfl) (Or.inl rfl)
  | @radix _ letter d _ _ cs hradix _ _ =>
      have hletter : Stops Char.isDigit (letter :: d :: (cs ++ rest)) ∧
          Stops (fun c => c == '-' || c == ':') (letter :: d :: (cs ++ rest)) := by
        cases hradix <;> exact ⟨stops_cons.2 rfl, stops_cons.2 rfl⟩
      exact startsMoment_eq_false ['0'] (by simp) hletter.1 (Or.inr hletter.2)

/-! ## Values are read -/

/-- A number begins with a digit or a sign. -/
theorem NatWritten.exists_eq_cons (h : NatWritten n cs) :
    ∃ c tail, cs = c :: tail ∧ (c.isDigit = true ∨ c = '+' ∨ c = '-') := by
  cases h with
  | decimal h =>
      obtain ⟨d, tail, rfl, hd⟩ := h.exists_eq_cons
      exact ⟨d, tail, rfl, Or.inl hd⟩
  | plus _ => exact ⟨_, _, rfl, Or.inr (Or.inl rfl)⟩
  | minusZero => exact ⟨_, _, rfl, Or.inr (Or.inr rfl)⟩
  | radix _ _ _ => exact ⟨_, _, rfl, Or.inl rfl⟩

theorem value?_nat (h : NatWritten n cs) (hbound : n < natBound) (hrest : AfterValue rest)
    (budget depth : Nat) :
    value? (budget + 1) depth (cs ++ rest) = some (.integer n, rest) := by
  have hnumber := number?_append h hbound hrest
  have hmoment := h.startsMoment hrest
  obtain ⟨c, tail, rfl, hc⟩ := h.exists_eq_cons
  have hother : ∀ d ∈ ['[', '\x7b', 't', 'f', '"', '\''], c ≠ d := by
    have hnot : ∀ d ∈ ['[', '\x7b', 't', 'f', '"', '\''],
        d.isDigit = false ∧ d ≠ '+' ∧ d ≠ '-' := by simp
    rintro d hd rfl
    obtain ⟨hdigit, hplus, hminus⟩ := hnot c hd
    rcases hc with hc | hc | hc
    · cases hdigit.symm.trans hc
    · exact hplus hc
    · exact hminus hc
  rw [List.cons_append] at hnumber hmoment ⊢
  rw [value?_scalar (hother _ (by simp)) (hother _ (by simp)), scalar?, hmoment,
    if_neg Bool.false_ne_true, hnumber]
  · exact fun _ heq => hother 't' (by simp) (List.cons.inj heq).1
  · exact fun _ heq => hother 'f' (by simp) (List.cons.inj heq).1
  · exact fun _ heq => hother '"' (by simp) (List.cons.inj heq).1
  · exact fun _ heq => hother '\'' (by simp) (List.cons.inj heq).1

/-- A value that is spelled is read, inside no other and before what may follow it. -/
theorem value?_append {v : Toml} (h : ValueWritten v cs) (hrest : AfterValue rest) {budget : Nat}
    (hbudget : cs.length < budget) (depth : Nat) :
    value? budget (depth + 1) (cs ++ rest) = some (v, rest) := by
  obtain ⟨budget, rfl⟩ := Nat.exists_eq_succ_of_ne_zero (Nat.ne_zero_of_lt hbudget)
  cases h with
  | @strings items l cs hl hitems =>
      have hlength := hitems.length_lt
      rw [List.cons_append, List.append_assoc]
      refine value?_strings hl hitems ?_ depth rest
      simp only [List.length_cons, List.length_append] at hbudget
      omega
  | nat hbound h => exact value?_nat h hbound hrest budget (depth + 1)
  | true => exact value?_scalar (by decide) (by decide) budget (depth + 1) _
  | false => exact value?_scalar (by decide) (by decide) budget (depth + 1) _

end ModuleGraph.Toml
