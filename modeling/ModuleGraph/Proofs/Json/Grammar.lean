import ModuleGraph.Json.Reader
import ModuleGraph.Proofs.Text.Run

/-!
# The grammar of JSON, and a reader that reads all of it

`Written` says which texts spell a value: its parts in the order of the grammar, with any blanks
between them. A number has no leading zeros and keeps the form it is written in; a string is a
run of pieces, each a character that stands for itself, an escaped one, or a code unit by number.
The items of an array are spelled up to and with the closing bracket, and the members of an object
up to and with the closing brace, which is how they are read; so there is one relation for all
three, over what is spelled (`Phrase`).

What is proved is `parse?_of_written`: every spelling of a value is read as that value. The
induction is on the spelling. A value needs to know that what follows it does not go on with a
number (`NumberEnds`); everything else ends in a character of its own. The budget of the reader is
enough when it is as long as the spelling, since each step down or along passes a character.
-/

namespace ModuleGraph.Json

open Text

/-- Nothing but blanks. -/
def Blanks (cs : List Char) : Prop :=
  ∀ c ∈ cs, isBlank c = true

/-- One digit or more. -/
def Digits (cs : List Char) : Prop :=
  cs ≠ [] ∧ ∀ c ∈ cs, c.isDigit = true

/-! ## Strings -/

/-- The spellings of pieces. -/
inductive Piece.Written : List Piece → List Char → Prop
  | nil : Written [] []
  | plain {c : Char} {pieces : List Piece} {cs : List Char} : c ≠ '"' → c ≠ '\\' →
      0x20 ≤ c.toNat → Written pieces cs → Written (.char c :: pieces) (c :: cs)
  | escaped {e c : Char} {pieces : List Piece} {cs : List Char} : unescape? e = some c →
      Written pieces cs → Written (.char c :: pieces) ('\\' :: e :: cs)
  | unit {a b c d : Char} {n : Nat} {pieces : List Piece} {cs : List Char} :
      Hexadecimal.value? [a, b, c, d] = some n → Written pieces cs →
      Written (.unit n :: pieces) ('\\' :: 'u' :: a :: b :: c :: d :: cs)

/-- The spellings of a string. -/
inductive LiteralWritten : Option String → List Char → Prop
  | mk {pieces : List Piece} {cs : List Char} : Piece.Written pieces cs →
      LiteralWritten ((spell? pieces).map String.ofList) ('"' :: (cs ++ ['"']))

/-! ## Numbers -/

inductive IntegerWritten : Nat → List Char → Prop
  | zero : IntegerWritten 0 ['0']
  | digits {cs : List Char} : Digits cs → cs.head? ≠ some '0' →
      IntegerWritten (Decimal.value cs) cs

inductive FractionWritten : List Nat → List Char → Prop
  | none : FractionWritten [] []
  | digits {cs : List Char} : Digits cs → FractionWritten (cs.map Decimal.worth) ('.' :: cs)

inductive ExponentWritten : Option Int → List Char → Prop
  | none : ExponentWritten none []
  | bare {e : Char} {cs : List Char} : e = 'e' ∨ e = 'E' → Digits cs →
      ExponentWritten (some (Decimal.value cs)) (e :: cs)
  | plus {e : Char} {cs : List Char} : e = 'e' ∨ e = 'E' → Digits cs →
      ExponentWritten (some (Decimal.value cs)) (e :: '+' :: cs)
  | minus {e : Char} {cs : List Char} : e = 'e' ∨ e = 'E' → Digits cs →
      ExponentWritten (some (-(Decimal.value cs : Int))) (e :: '-' :: cs)

/-- The spellings of a number. -/
inductive Number.Written : Number → List Char → Prop
  | mk {negative : Bool} {integer : Nat} {fraction : List Nat} {exponent : Option Int}
      {cs₁ cs₂ cs₃ : List Char} :
      IntegerWritten integer cs₁ → FractionWritten fraction cs₂ → ExponentWritten exponent cs₃ →
      Written { negative, integer, fraction, exponent }
        ((if negative then ['-'] else []) ++ (cs₁ ++ (cs₂ ++ cs₃)))

/-! ## Values -/

/-- What a text may spell: a value, or the rest of an array or an object that is not empty. -/
inductive Phrase where
  | value (v : Json)
  | items (items : List Json)
  | members (members : List (Option String × Json))

/-- The spellings of values, of items up to the bracket, and of members up to the brace. -/
inductive Written : Phrase → List Char → Prop
  | nullWord : Written (.value .null) ['n', 'u', 'l', 'l']
  | trueWord : Written (.value (.bool true)) ['t', 'r', 'u', 'e']
  | falseWord : Written (.value (.bool false)) ['f', 'a', 'l', 's', 'e']
  | num {n : Number} {cs : List Char} : n.Written cs → Written (.value (.num n)) cs
  | str {s : Option String} {cs : List Char} : LiteralWritten s cs → Written (.value (.str s)) cs
  | noItems {b : List Char} : Blanks b → Written (.value (.arr [])) ('[' :: (b ++ [']']))
  | arr {items : List Json} {cs : List Char} : Written (.items items) cs →
      Written (.value (.arr items)) ('[' :: cs)
  | noMembers {b : List Char} : Blanks b → Written (.value (.obj [])) ('\x7b' :: (b ++ ['\x7d']))
  | obj {members : List (Option String × Json)} {cs : List Char} : Written (.members members) cs →
      Written (.value (.obj members)) ('\x7b' :: cs)
  | lastItem {v : Json} {b₁ cs b₂ : List Char} : Blanks b₁ → Written (.value v) cs → Blanks b₂ →
      Written (.items [v]) (b₁ ++ (cs ++ (b₂ ++ [']'])))
  | item {v : Json} {rest : List Json} {b₁ cs b₂ tail : List Char} : Blanks b₁ →
      Written (.value v) cs → Blanks b₂ → Written (.items rest) tail →
      Written (.items (v :: rest)) (b₁ ++ (cs ++ (b₂ ++ ',' :: tail)))
  | lastMember {key : Option String} {v : Json} {b₁ name b₂ b₃ cs b₄ : List Char} : Blanks b₁ →
      LiteralWritten key name → Blanks b₂ → Blanks b₃ → Written (.value v) cs → Blanks b₄ →
      Written (.members [(key, v)])
        (b₁ ++ (name ++ (b₂ ++ ':' :: (b₃ ++ (cs ++ (b₄ ++ ['\x7d']))))))
  | member {key : Option String} {v : Json} {rest : List (Option String × Json)}
      {b₁ name b₂ b₃ cs b₄ tail : List Char} : Blanks b₁ → LiteralWritten key name → Blanks b₂ →
      Blanks b₃ → Written (.value v) cs → Blanks b₄ → Written (.members rest) tail →
      Written (.members ((key, v) :: rest))
        (b₁ ++ (name ++ (b₂ ++ ':' :: (b₃ ++ (cs ++ (b₄ ++ ',' :: tail))))))

/-! ## Blanks are passed over -/

theorem skip_append {b cs : List Char} (hb : Blanks b) (hs : Stops isBlank cs) :
    skip (b ++ cs) = cs :=
  dropWhile_append_of_stops hb hs

theorem skip_of_stops {cs : List Char} (h : Stops isBlank cs) : skip cs = cs :=
  skip_append (b := []) (fun _ h => absurd h List.not_mem_nil) h

theorem skip_skip (cs : List Char) : skip (skip cs) = skip cs :=
  skip_of_stops (stops_dropWhile isBlank cs)

/-- A string begins with its quote. -/
theorem LiteralWritten.exists_eq_cons {s : Option String} {cs : List Char}
    (h : LiteralWritten s cs) : ∃ tail, cs = '"' :: tail := by
  cases h with
  | mk => exact ⟨_, rfl⟩

theorem LiteralWritten.stops_isBlank {s : Option String} {cs : List Char}
    (h : LiteralWritten s cs) (rest : List Char) : Stops isBlank (cs ++ rest) := by
  obtain ⟨tail, rfl⟩ := h.exists_eq_cons
  exact stops_cons.2 (by decide)

theorem isBlank_eq_false_of_isDigit {c : Char} (h : c.isDigit = true) : isBlank c = false := by
  refine Bool.eq_false_iff.2 fun hb => ?_
  simp only [isBlank, Bool.or_eq_true, beq_iff_eq] at hb
  rcases hb with ((rfl | rfl) | rfl) | rfl <;> exact absurd h (by decide)

/-- An integer begins with a digit. -/
theorem IntegerWritten.exists_eq_cons {n : Nat} {cs : List Char} (h : IntegerWritten n cs) :
    ∃ c tail, cs = c :: tail ∧ c.isDigit = true := by
  cases h with
  | zero => exact ⟨'0', [], rfl, by decide⟩
  | digits hd _ =>
      obtain ⟨c, tail, rfl⟩ := List.exists_cons_of_ne_nil hd.1
      exact ⟨c, tail, rfl, hd.2 c List.mem_cons_self⟩

/-- A value begins with a character that is no blank, and does not close an array. -/
theorem Written.exists_eq_cons {v : Json} {cs : List Char} (h : Written (.value v) cs) :
    ∃ c tail, cs = c :: tail ∧ isBlank c = false ∧ c ≠ ']' := by
  cases h with
  | nullWord => exact ⟨_, _, rfl, by decide, by decide⟩
  | trueWord => exact ⟨_, _, rfl, by decide, by decide⟩
  | falseWord => exact ⟨_, _, rfl, by decide, by decide⟩
  | num hn =>
      obtain ⟨hi, -, -⟩ := hn
      obtain ⟨c, tail, rfl, hc⟩ := hi.exists_eq_cons
      rename_i negative _ _ _ _ _
      cases negative with
      | true => exact ⟨_, _, rfl, by decide, by decide⟩
      | false =>
          refine ⟨_, _, rfl, isBlank_eq_false_of_isDigit hc, ?_⟩
          rintro rfl
          exact absurd hc (by decide)
  | str hs =>
      obtain ⟨tail, rfl⟩ := hs.exists_eq_cons
      exact ⟨_, _, rfl, by decide, by decide⟩
  | noItems => exact ⟨_, _, rfl, by decide, by decide⟩
  | arr => exact ⟨_, _, rfl, by decide, by decide⟩
  | noMembers => exact ⟨_, _, rfl, by decide, by decide⟩
  | obj => exact ⟨_, _, rfl, by decide, by decide⟩

theorem Written.stops_isBlank {v : Json} {cs : List Char} (h : Written (.value v) cs)
    (rest : List Char) : Stops isBlank (cs ++ rest) := by
  obtain ⟨c, tail, rfl, hc, -⟩ := h.exists_eq_cons
  exact stops_cons.2 hc

/-- Behind the blanks in front of items stands the first of them. -/
theorem skip_items {items : List Json} {cs : List Char} (h : Written (.items items) cs)
    (rest : List Char) : ∃ c tail, skip (cs ++ rest) = c :: tail ∧ c ≠ ']' := by
  cases h with
  | lastItem hb hv _ =>
      obtain ⟨c, tail, rfl, -, hc⟩ := hv.exists_eq_cons
      rw [List.append_assoc, List.append_assoc, skip_append hb (hv.stops_isBlank _)]
      exact ⟨_, _, rfl, hc⟩
  | item hb hv _ _ =>
      obtain ⟨c, tail, rfl, -, hc⟩ := hv.exists_eq_cons
      rw [List.append_assoc, List.append_assoc, skip_append hb (hv.stops_isBlank _)]
      exact ⟨_, _, rfl, hc⟩

/-- Behind the blanks in front of members stands the key of the first of them. -/
theorem skip_members {members : List (Option String × Json)} {cs : List Char}
    (h : Written (.members members) cs) (rest : List Char) :
    ∃ tail, skip (cs ++ rest) = '"' :: tail := by
  cases h with
  | lastMember hb hk _ _ _ _ =>
      rw [List.append_assoc, List.append_assoc, skip_append hb (hk.stops_isBlank _)]
      obtain ⟨tail, rfl⟩ := hk.exists_eq_cons
      exact ⟨_, rfl⟩
  | member hb hk _ _ _ _ _ =>
      rw [List.append_assoc, List.append_assoc, skip_append hb (hk.stops_isBlank _)]
      obtain ⟨tail, rfl⟩ := hk.exists_eq_cons
      exact ⟨_, rfl⟩

/-! ## Strings are read -/

theorem pieces?_plain {c : Char} (cs : List Char) (hq : c ≠ '"') (hb : c ≠ '\\')
    (hc : 0x20 ≤ c.toNat) :
    pieces? (c :: cs) = (pieces? cs).map fun (rest, cs) => (.char c :: rest, cs) := by
  rw [pieces?]
  · rw [if_neg (Nat.not_lt.2 hc)]
  all_goals simp_all

/-- An escape is known by the character behind the backslash, and `u` is none of these. -/
theorem pieces?_escaped {e c : Char} (cs : List Char) (h : unescape? e = some c) :
    pieces? ('\\' :: e :: cs) = (pieces? cs).map fun (rest, cs) => (.char c :: rest, cs) := by
  rw [pieces?, h]
  · cases pieces? cs <;> rfl
  · intro _ _ _ _ _ he
    cases he
    cases h

theorem pieces?_append {pieces : List Piece} {cs : List Char} (h : Piece.Written pieces cs)
    (rest : List Char) : pieces? (cs ++ '"' :: rest) = some (pieces, rest) := by
  induction h with
  | nil => rfl
  | plain hq hb hc _ ih => rw [List.cons_append, pieces?_plain _ hq hb hc, ih]; rfl
  | escaped he _ ih => rw [List.cons_append, List.cons_append, pieces?_escaped _ he, ih]; rfl
  | unit hn _ ih =>
      simp only [List.cons_append, pieces?, hn, ih]
      rfl

theorem literal?_append {s : Option String} {cs : List Char} (h : LiteralWritten s cs) :
    ∃ tail, cs = '"' :: tail ∧ ∀ rest, literal? (tail ++ rest) = some (s, rest) := by
  cases h with
  | @mk pieces cs hp =>
      refine ⟨cs ++ ['"'], rfl, ?_⟩
      intro rest
      rw [literal?, List.append_assoc, List.singleton_append, pieces?_append hp]
      rfl

/-! ## Numbers are read -/

/-- A character that may stand in a number behind its first one. -/
def isNumberPart (c : Char) : Bool :=
  c.isDigit || c == '.' || c == 'e' || c == 'E'

/-- The text does not go on with a number. -/
def NumberEnds (cs : List Char) : Prop :=
  Stops isNumberPart cs

theorem NumberEnds.isDigit {cs : List Char} (h : NumberEnds cs) : Stops Char.isDigit cs := by
  intro c hc
  have := h c hc
  simp only [isNumberPart, Bool.or_eq_false_iff] at this
  exact this.1.1.1

theorem digits?_append {cs rest : List Char} (h : Digits cs) (hr : Stops Char.isDigit rest) :
    digits? (cs ++ rest) = some (cs, rest) := by
  rw [digits?, takeWhile_append_of_stops h.2 hr, dropWhile_append_of_stops h.2 hr]
  simp only [List.isEmpty_iff, if_neg h.1]

theorem integer?_append {n : Nat} {cs rest : List Char} (h : IntegerWritten n cs)
    (hr : Stops Char.isDigit rest) : integer? (cs ++ rest) = some (n, rest) := by
  cases h with
  | zero => rfl
  | digits hd hz =>
      rw [integer?, digits?_append hd hr]
      · rfl
      · intro tail heq
        obtain ⟨c, cs, rfl⟩ := List.exists_cons_of_ne_nil hd.1
        cases heq
        exact hz rfl

/-- Behind an integer or a fraction stands an exponent or the end, so no digit and no point. -/
theorem ExponentWritten.stops {exponent : Option Int} {cs rest : List Char}
    (h : ExponentWritten exponent cs) (hr : NumberEnds rest) :
    Stops Char.isDigit (cs ++ rest) ∧ Stops (· == '.') (cs ++ rest) := by
  have hletter : ∀ {e : Char} {tail : List Char}, e = 'e' ∨ e = 'E' →
      Stops Char.isDigit (e :: tail) ∧ Stops (· == '.') (e :: tail) := by
    intro e tail he
    rcases he with rfl | rfl
    · exact ⟨stops_cons.2 (by decide), stops_cons.2 (by decide)⟩
    · exact ⟨stops_cons.2 (by decide), stops_cons.2 (by decide)⟩
  cases h with
  | none =>
      refine ⟨hr.isDigit, ?_⟩
      intro c hc
      have := hr c hc
      simp only [isNumberPart, Bool.or_eq_false_iff] at this
      exact this.1.1.2
  | bare he _ => exact hletter he
  | plus he _ => exact hletter he
  | minus he _ => exact hletter he

theorem fraction?_append {fraction : List Nat} {cs rest : List Char}
    (h : FractionWritten fraction cs) (hd : Stops Char.isDigit rest) (hp : Stops (· == '.') rest) :
    fraction? (cs ++ rest) = some (fraction, rest) := by
  cases h with
  | none =>
      rw [List.nil_append, fraction?]
      rintro tail rfl
      exact absurd (stops_cons.1 hp) (by decide)
  | digits hcs =>
      rw [List.cons_append, fraction?, digits?_append hcs hd]
      rfl

theorem exponentDigits?_append {cs rest : List Char} (h : Digits cs)
    (hr : Stops Char.isDigit rest) :
    exponentDigits? (cs ++ rest) = some ((Decimal.value cs : Int), rest) := by
  have hsign : ∀ (sign : Char) (tail : List Char), sign.isDigit = false →
      cs ++ rest ≠ sign :: tail := by
    intro sign tail hs heq
    obtain ⟨c, cs, rfl⟩ := List.exists_cons_of_ne_nil h.1
    cases heq
    rw [h.2 sign List.mem_cons_self] at hs
    cases hs
  rw [exponentDigits?, digits?_append h hr]
  · rfl
  · exact fun tail heq => hsign '-' tail (by decide) heq
  · exact fun tail heq => hsign '+' tail (by decide) heq

theorem exponent?_cons {e : Char} (cs : List Char) (he : e = 'e' ∨ e = 'E') :
    exponent? (e :: cs) = (exponentDigits? cs).map fun (n, cs) => (some n, cs) := by
  rcases he with rfl | rfl
  · rfl
  · rfl

theorem exponent?_append {exponent : Option Int} {cs rest : List Char}
    (h : ExponentWritten exponent cs) (hr : NumberEnds rest) :
    exponent? (cs ++ rest) = some (exponent, rest) := by
  cases h with
  | none =>
      rw [List.nil_append, exponent?]
      · rintro tail rfl
        exact absurd (stops_cons.1 hr) (by decide)
      · rintro tail rfl
        exact absurd (stops_cons.1 hr) (by decide)
  | bare he hd =>
      rw [List.cons_append, exponent?_cons _ he, exponentDigits?_append hd hr.isDigit]
      rfl
  | plus he hd =>
      rw [List.cons_append, exponent?_cons _ he, List.cons_append, exponentDigits?,
        digits?_append hd hr.isDigit]
      rfl
  | minus he hd =>
      rw [List.cons_append, exponent?_cons _ he, List.cons_append, exponentDigits?,
        digits?_append hd hr.isDigit]
      rfl

/-- The parts of a number behind its sign. -/
theorem number?_append (negative : Bool) {integer : Nat} {fraction : List Nat}
    {exponent : Option Int} {cs₁ cs₂ cs₃ rest : List Char} (hi : IntegerWritten integer cs₁)
    (hf : FractionWritten fraction cs₂) (he : ExponentWritten exponent cs₃)
    (hr : NumberEnds rest) :
    number? negative (cs₁ ++ (cs₂ ++ (cs₃ ++ rest))) =
      some (.num { negative, integer, fraction, exponent }, rest) := by
  obtain ⟨hdigit, hpoint⟩ := he.stops hr
  have hstop : Stops Char.isDigit (cs₂ ++ (cs₃ ++ rest)) := by
    cases hf with
    | none => exact hdigit
    | digits => exact stops_cons.2 (by decide)
  simp only [number?, integer?_append hi hstop, fraction?_append hf hdigit hpoint,
    exponent?_append he hr, Option.bind_eq_bind, Option.bind_some]
  rfl

/-! ## Values are read -/

/-- A digit begins a number and nothing else. -/
theorem value?_digit {c : Char} (n : Nat) (cs : List Char) (h : c.isDigit = true) :
    value? (n + 1) (c :: cs) = number? false (c :: cs) := by
  have hskip : skip (c :: cs) = c :: cs :=
    skip_of_stops (stops_cons.2 (isBlank_eq_false_of_isDigit h))
  rw [value?, hskip]
  split
  case h_8 => rfl
  all_goals
    next heq =>
    cases heq
    exact absurd h (by decide)

/-- Blanks in front of a value do not count. -/
theorem value?_skip (n : Nat) (cs : List Char) : value? n (skip cs) = value? n cs := by
  cases n with
  | zero => rfl
  | succ n => rw [value?, value?, skip_skip]

theorem items?_skip (n : Nat) (cs : List Char) : items? n (skip cs) = items? n cs := by
  cases n with
  | zero => rfl
  | succ n => rw [items?, items?, value?_skip]

theorem members?_skip (n : Nat) (cs : List Char) : members? n (skip cs) = members? n cs := by
  cases n with
  | zero => rfl
  | succ n => rw [members?, members?, skip_skip]

theorem value?_array {c : Char} {tail cs : List Char} (n : Nat) (h : skip cs = c :: tail)
    (hc : c ≠ ']') :
    value? (n + 1) ('[' :: cs) = (items? n cs).map fun (items, cs) => (.arr items, cs) := by
  rw [← items?_skip, value?, skip_of_stops (stops_cons.2 (by decide))]
  simp only [h]
  split
  · next heq =>
    cases heq
    exact absurd rfl hc
  · rfl

theorem value?_object {tail cs : List Char} (n : Nat) (h : skip cs = '"' :: tail) :
    value? (n + 1) ('\x7b' :: cs) =
      (members? n cs).map fun (members, cs) => (.obj members, cs) := by
  rw [← members?_skip, value?, skip_of_stops (stops_cons.2 (by decide))]
  simp only [h]
  rfl

theorem isNumberPart_eq_false_of_isBlank {c : Char} (h : isBlank c = true) :
    isNumberPart c = false := by
  simp only [isBlank, Bool.or_eq_true, beq_iff_eq] at h
  rcases h with ((rfl | rfl) | rfl) | rfl <;> decide

/-- A number ends before blanks and before any mark. -/
theorem numberEnds_append {b rest : List Char} {c : Char} (hb : Blanks b)
    (hc : isNumberPart c = false) : NumberEnds (b ++ c :: rest) := by
  cases b with
  | nil => exact stops_cons.2 hc
  | cons d b => exact stops_cons.2 (isNumberPart_eq_false_of_isBlank (hb d List.mem_cons_self))

/-- What is read of a spelling, whatever stands behind it. -/
def Reads : Phrase → List Char → Prop
  | .value v, cs => ∀ n rest, cs.length ≤ n → NumberEnds rest →
      value? n (cs ++ rest) = some (v, rest)
  | .items items, cs => ∀ n rest, cs.length ≤ n → items? n (cs ++ rest) = some (items, rest)
  | .members members, cs => ∀ n rest, cs.length ≤ n →
      members? n (cs ++ rest) = some (members, rest)

theorem reads_number {n : Number} {cs : List Char} (h : n.Written cs) :
    Reads (.value (.num n)) cs := by
  intro budget rest hlen hr
  cases h with
  | @mk negative _ _ _ cs₁ cs₂ cs₃ hi hf he =>
      obtain ⟨c, tail, hcs, hc⟩ := hi.exists_eq_cons
      have hread := number?_append negative hi hf he hr
      obtain ⟨budget, rfl⟩ : ∃ m, budget = m + 1 := by
        refine Nat.exists_eq_add_of_le' (Nat.le_trans ?_ hlen)
        rw [hcs]
        simp only [List.length_append, List.length_cons]
        omega
      cases negative with
      | true =>
          simp only [if_true, List.append_assoc, List.cons_append, List.nil_append]
          rw [value?, skip_of_stops (stops_cons.2 (by decide))]
          exact hread
      | false =>
          simp only [Bool.false_eq_true, if_false, List.append_assoc, List.nil_append]
          rw [← hread, hcs, List.cons_append]
          exact value?_digit budget _ hc

/-- The first item is read, and the mark behind it decides how to go on. -/
theorem items?_append {v : Json} {b₁ cs b₂ tail : List Char} {c : Char} {n : Nat}
    (hb₁ : Blanks b₁) (hv : Written (.value v) cs) (ih : Reads (.value v) cs) (hb₂ : Blanks b₂)
    (hc : c = ',' ∨ c = ']') (hlen : cs.length ≤ n) :
    items? (n + 1) (b₁ ++ (cs ++ (b₂ ++ c :: tail))) =
      if c = ',' then (items? n tail).map fun (rest, cs) => (v :: rest, cs)
      else some ([v], tail) := by
  have hmark : isNumberPart c = false ∧ isBlank c = false := by
    rcases hc with rfl | rfl <;> decide
  have hread := ih n (b₂ ++ c :: tail) hlen (numberEnds_append hb₂ hmark.1)
  rw [items?, ← value?_skip, skip_append hb₁ (hv.stops_isBlank _), hread]
  simp only [Option.bind_eq_bind, Option.bind_some, skip_append hb₂ (stops_cons.2 hmark.2)]
  rcases hc with rfl | rfl
  · rfl
  · rfl

/-- The first member is read, and the mark behind it decides how to go on. -/
theorem members?_append {key : Option String} {v : Json}
    {b₁ name b₂ b₃ cs b₄ tail : List Char} {c : Char} {n : Nat} (hb₁ : Blanks b₁)
    (hkey : LiteralWritten key name) (hb₂ : Blanks b₂) (hb₃ : Blanks b₃)
    (hv : Written (.value v) cs) (ih : Reads (.value v) cs) (hb₄ : Blanks b₄)
    (hc : c = ',' ∨ c = '\x7d') (hlen : cs.length ≤ n) :
    members? (n + 1) (b₁ ++ (name ++ (b₂ ++ ':' :: (b₃ ++ (cs ++ (b₄ ++ c :: tail)))))) =
      if c = ',' then (members? n tail).map fun (rest, cs) => ((key, v) :: rest, cs)
      else some ([(key, v)], tail) := by
  have hmark : isNumberPart c = false ∧ isBlank c = false := by
    rcases hc with rfl | rfl <;> decide
  have hread := ih n (b₄ ++ c :: tail) hlen (numberEnds_append hb₄ hmark.1)
  have hcolon : ∀ rest, skip (b₂ ++ ':' :: rest) = ':' :: rest := fun rest =>
    skip_append hb₂ (stops_cons.2 (by decide))
  rw [members?, skip_append hb₁ (hkey.stops_isBlank _)]
  obtain ⟨chars, rfl, hliteral⟩ := literal?_append hkey
  simp only [List.cons_append, hliteral, Option.bind_eq_bind, Option.bind_some, hcolon]
  rw [← value?_skip, skip_append hb₃ (hv.stops_isBlank _), hread]
  simp only [Option.bind_some, skip_append hb₄ (stops_cons.2 hmark.2)]
  rcases hc with rfl | rfl
  · rfl
  · rfl

theorem reads_of_written {phrase : Phrase} {cs : List Char} (h : Written phrase cs) :
    Reads phrase cs := by
  induction h with
  | nullWord =>
      intro n rest hlen _
      obtain ⟨n, rfl⟩ := Nat.exists_eq_add_of_le' hlen
      rfl
  | trueWord =>
      intro n rest hlen _
      obtain ⟨n, rfl⟩ := Nat.exists_eq_add_of_le' hlen
      rfl
  | falseWord =>
      intro n rest hlen _
      obtain ⟨n, rfl⟩ := Nat.exists_eq_add_of_le' hlen
      rfl
  | num hn => exact reads_number hn
  | str hs =>
      intro n rest hlen _
      obtain ⟨tail, rfl, hread⟩ := literal?_append hs
      obtain ⟨n, rfl⟩ := Nat.exists_eq_add_of_le' (Nat.le_trans (Nat.succ_pos _) hlen)
      rw [List.cons_append, value?, skip_of_stops (stops_cons.2 (by decide))]
      simp only [hread]
      rfl
  | noItems hb =>
      intro n rest hlen _
      obtain ⟨n, rfl⟩ := Nat.exists_eq_add_of_le' (Nat.le_trans (Nat.succ_pos _) hlen)
      rw [List.cons_append, List.append_assoc, List.singleton_append, value?,
        skip_of_stops (stops_cons.2 (by decide))]
      simp only [skip_append hb (stops_cons.2 (by decide : isBlank ']' = false))]
  | arr hitems ih =>
      intro n rest hlen _
      obtain ⟨n, rfl⟩ := Nat.exists_eq_add_of_le' (Nat.le_trans (Nat.succ_pos _) hlen)
      obtain ⟨c, tail, hskip, hc⟩ := skip_items hitems rest
      rw [List.cons_append, value?_array n hskip hc, ih n rest (Nat.le_of_succ_le_succ hlen)]
      rfl
  | noMembers hb =>
      intro n rest hlen _
      obtain ⟨n, rfl⟩ := Nat.exists_eq_add_of_le' (Nat.le_trans (Nat.succ_pos _) hlen)
      rw [List.cons_append, List.append_assoc, List.singleton_append, value?,
        skip_of_stops (stops_cons.2 (by decide))]
      simp only [skip_append hb (stops_cons.2 (by decide : isBlank '\x7d' = false))]
  | obj hmembers ih =>
      intro n rest hlen _
      obtain ⟨n, rfl⟩ := Nat.exists_eq_add_of_le' (Nat.le_trans (Nat.succ_pos _) hlen)
      obtain ⟨tail, hskip⟩ := skip_members hmembers rest
      rw [List.cons_append, value?_object n hskip, ih n rest (Nat.le_of_succ_le_succ hlen)]
      rfl
  | lastItem hb₁ hv hb₂ ih =>
      intro n rest hlen
      simp only [List.length_append, List.length_cons] at hlen
      obtain ⟨n, rfl⟩ : ∃ m, n = m + 1 := ⟨n - 1, by omega⟩
      simp only [List.append_assoc, List.singleton_append]
      rw [items?_append hb₁ hv ih hb₂ (Or.inr rfl) (by omega)]
      rfl
  | item hb₁ hv hb₂ _ ih ihrest =>
      intro n rest hlen
      simp only [List.length_append, List.length_cons] at hlen
      obtain ⟨n, rfl⟩ : ∃ m, n = m + 1 := ⟨n - 1, by omega⟩
      simp only [List.append_assoc, List.cons_append]
      rw [items?_append hb₁ hv ih hb₂ (Or.inl rfl) (by omega), ihrest n rest (by omega)]
      rfl
  | lastMember hb₁ hkey hb₂ hb₃ hv hb₄ ih =>
      intro n rest hlen
      simp only [List.length_append, List.length_cons] at hlen
      obtain ⟨n, rfl⟩ : ∃ m, n = m + 1 := ⟨n - 1, by omega⟩
      simp only [List.append_assoc, List.cons_append, List.nil_append]
      rw [members?_append hb₁ hkey hb₂ hb₃ hv ih hb₄ (Or.inr rfl) (by omega)]
      rfl
  | member hb₁ hkey hb₂ hb₃ hv hb₄ _ ih ihrest =>
      intro n rest hlen
      simp only [List.length_append, List.length_cons] at hlen
      obtain ⟨n, rfl⟩ : ∃ m, n = m + 1 := ⟨n - 1, by omega⟩
      simp only [List.append_assoc, List.cons_append]
      rw [members?_append hb₁ hkey hb₂ hb₃ hv ih hb₄ (Or.inl rfl) (by omega),
        ihrest n rest (by omega)]
      rfl

/-- Every spelling of a value, with blanks around it, is read as that value. -/
theorem parse?_of_written {v : Json} {b₁ cs b₂ : List Char} (hb₁ : Blanks b₁)
    (h : Written (.value v) cs) (hb₂ : Blanks b₂) :
    parse? (String.ofList (b₁ ++ (cs ++ b₂))) = some v := by
  have hend : NumberEnds b₂ := by
    intro c hc
    exact isNumberPart_eq_false_of_isBlank (hb₂ c (List.mem_of_mem_head? hc))
  have hskip : skip b₂ = [] := by
    rw [← List.append_nil b₂]
    exact skip_append hb₂ fun _ h => absurd h (Option.not_mem_none _)
  have hlen : cs.length ≤ 2 * (b₁ ++ (cs ++ b₂)).length + 2 := by
    simp only [List.length_append]
    omega
  rw [parse?, String.toList_ofList]
  simp only [Option.bind_eq_bind]
  rw [← value?_skip, skip_append hb₁ (h.stops_isBlank _), reads_of_written h _ b₂ hlen hend]
  simp only [Option.bind_some, hskip, List.isEmpty_nil, if_true]

end ModuleGraph.Json
