import ModuleGraph.Json.Printer
import ModuleGraph.Proofs.Json.Grammar

/-!
# What is printed is in the grammar

Each of the two layouts of a value is one of its spellings (`written_prettyChars`,
`written_compactChars`), so it is read as that value (`parse?_pretty`). Nothing is asked of strings:
whatever characters a text has, and even half of a surrogate pair, is printed in a way that is read
back. Of a number it is asked that the digits after its point are digits, which the
type leaves open (`Proper`).

The induction is on the value. Within an array and an object there is a second one, along the
items and the members, whose statement begins at the first of them and ends with the closing mark,
as the printers and the grammar do. It does not depend on the layout but for the blanks that stand
in front of each item and of the mark (`written_items`, `written_members`).
-/

namespace ModuleGraph.Json

open Text

/-! ## Strings -/

/-- A control is no half of a pair, so it stands for itself whatever follows it. -/
theorem spell?_control {n : Nat} (h : n < 0x20) (pieces : List Piece) :
    spell? (.unit n :: pieces) = (spell? pieces).map (Char.ofNat n :: ·) := by
  have hhigh : isHigh n = false := by
    simp only [isHigh, Bool.and_eq_false_iff, decide_eq_false_iff_not]
    omega
  have hlow : isLow n = false := by
    simp only [isLow, Bool.and_eq_false_iff, decide_eq_false_iff_not]
    omega
  cases pieces with
  | nil => simp [spell?, hhigh, hlow]
  | cons piece pieces =>
      cases piece with
      | char c => simp [spell?, hhigh, hlow]
      | unit l => simp [spell?, hhigh, hlow]

/-- A character is printed as one piece that spells it. -/
theorem exists_piece_escape (c : Char) : ∃ piece : Piece,
    (∀ {pieces : List Piece} {cs : List Char}, Piece.Written pieces cs →
      Piece.Written (piece :: pieces) (escape c ++ cs)) ∧
    ∀ pieces, spell? (piece :: pieces) = (spell? pieces).map (c :: ·) := by
  have hcode : ∀ {n : Nat}, c.toNat = n → c = Char.ofNat n := fun h =>
    h ▸ (Char.ofNat_toNat c).symm
  unfold escape
  split
  · next h => exact ⟨.char c, fun hp => .escaped (by rw [h]; rfl) hp, fun _ => rfl⟩
  split
  · next h => exact ⟨.char c, fun hp => .escaped (by rw [h]; rfl) hp, fun _ => rfl⟩
  split
  · next h => exact ⟨.char c, fun hp => .escaped (by rw [hcode h]; rfl) hp, fun _ => rfl⟩
  split
  · next h => exact ⟨.char c, fun hp => .escaped (by rw [hcode h]; rfl) hp, fun _ => rfl⟩
  split
  · next h => exact ⟨.char c, fun hp => .escaped (by rw [h]; rfl) hp, fun _ => rfl⟩
  split
  · next h => exact ⟨.char c, fun hp => .escaped (by rw [h]; rfl) hp, fun _ => rfl⟩
  split
  · next h => exact ⟨.char c, fun hp => .escaped (by rw [h]; rfl) hp, fun _ => rfl⟩
  split
  · next h =>
    refine ⟨.unit c.toNat, fun hp => .unit (Hexadecimal.value?_two (by omega)) hp, fun pieces => ?_⟩
    rw [spell?_control h, Char.ofNat_toNat]
  · next hquote hbackslash _ _ _ _ _ hcontrol =>
    exact ⟨.char c, fun hp => .plain hquote hbackslash (Nat.le_of_not_lt hcontrol) hp,
      fun _ => rfl⟩

theorem exists_pieces_escape (cs : List Char) : ∃ pieces : List Piece,
    Piece.Written pieces (cs.flatMap escape) ∧ spell? pieces = some cs := by
  induction cs with
  | nil => exact ⟨[], .nil, rfl⟩
  | cons c cs ih =>
      obtain ⟨pieces, hwritten, hspell⟩ := ih
      obtain ⟨piece, hpiece, hc⟩ := exists_piece_escape c
      refine ⟨piece :: pieces, hpiece hwritten, ?_⟩
      rw [hc, hspell]
      rfl

theorem literalWritten_literal (s : Option String) : LiteralWritten s (literal s) := by
  cases s with
  | none =>
      have hunit : Hexadecimal.value? ['d', '8', '0', '0'] = some 0xD800 := by decide
      exact .mk (.unit hunit .nil)
  | some s =>
      obtain ⟨pieces, hwritten, hspell⟩ := exists_pieces_escape s.toList
      have hs : (spell? pieces).map String.ofList = some s := by
        rw [hspell, Option.map_some, String.ofList_toList]
      have hliteral := LiteralWritten.mk hwritten
      rwa [hs] at hliteral

/-! ## Numbers -/

theorem digits_write (n : Nat) : Digits (Decimal.write n) :=
  ⟨Decimal.write_ne_nil n, fun _ => Decimal.isDigit_of_mem_write⟩

theorem integerWritten_write (n : Nat) : IntegerWritten n (Decimal.write n) := by
  by_cases hn : n = 0
  · rw [hn, Decimal.write_zero]
    exact .zero
  · have hwritten : IntegerWritten (Decimal.value (Decimal.write n)) (Decimal.write n) :=
      .digits (digits_write n) (Decimal.head?_write hn)
    rwa [Decimal.value_write] at hwritten

theorem fractionWritten_digits {fraction : List Nat} (h : ∀ d ∈ fraction, d < 10) :
    FractionWritten fraction
      (if fraction.isEmpty then [] else '.' :: fraction.map Decimal.digit) := by
  cases fraction with
  | nil => exact .none
  | cons d ds =>
      have hworth : ((d :: ds).map Decimal.digit).map Decimal.worth = d :: ds := by
        rw [List.map_map]
        exact (List.map_congr_left fun d hd => Decimal.worth_digit (h d hd)).trans (List.map_id _)
      have hdigits : Digits ((d :: ds).map Decimal.digit) := by
        refine ⟨List.cons_ne_nil _ _, ?_⟩
        intro c hc
        obtain ⟨d, hd, rfl⟩ := List.mem_map.1 hc
        exact Decimal.isDigit_digit (h d hd)
      have hwritten := FractionWritten.digits hdigits
      rwa [hworth] at hwritten

theorem exponentWritten_write (exponent : Option Int) :
    ExponentWritten exponent (match exponent with
      | none => []
      | some (.ofNat e) => 'e' :: Decimal.write e
      | some (.negSucc e) => 'e' :: '-' :: Decimal.write (e + 1)) := by
  cases exponent with
  | none => exact .none
  | some e =>
      cases e with
      | ofNat e =>
          have hwritten := ExponentWritten.bare (Or.inl rfl) (digits_write e)
          rwa [Decimal.value_write] at hwritten
      | negSucc e =>
          have hwritten := ExponentWritten.minus (Or.inl rfl) (digits_write (e + 1))
          rwa [Decimal.value_write] at hwritten

theorem number_written {n : Number} (h : ∀ d ∈ n.fraction, d < 10) : n.Written (number n) := by
  obtain ⟨negative, integer, fraction, exponent⟩ := n
  have hwritten := @Number.Written.mk negative _ _ _ _ _ _ (integerWritten_write integer)
    (fractionWritten_digits h) (exponentWritten_write exponent)
  rw [number, List.append_assoc, List.append_assoc]
  cases exponent with
  | none => exact hwritten
  | some e =>
      cases e with
      | ofNat e => exact hwritten
      | negSucc e => exact hwritten

/-! ## Values -/

/-- The digits after the point of every number in the value are digits. -/
inductive Proper : Json → Prop
  | null : Proper .null
  | bool {b : Bool} : Proper (.bool b)
  | num {n : Number} : (∀ d ∈ n.fraction, d < 10) → Proper (.num n)
  | str {s : Option String} : Proper (.str s)
  | arr {items : List Json} : (∀ v ∈ items, Proper v) → Proper (.arr items)
  | obj {members : List (Option String × Json)} : (∀ m ∈ members, Proper m.2) →
      Proper (.obj members)

theorem proper_record_nil : Proper (record []) :=
  .obj fun _ h => absurd h List.not_mem_nil

theorem proper_record_cons {key : String} {v : Json} {members : List (String × Json)}
    (h : Proper v) (hrest : Proper (record members)) : Proper (record ((key, v) :: members)) := by
  cases hrest with
  | obj hmembers => exact .obj (List.forall_mem_cons.2 ⟨h, hmembers⟩)

theorem proper_list {α : Type} {write : α → Json} {items : List α}
    (h : ∀ a ∈ items, Proper (write a)) : Proper (.arr (items.map write)) := by
  refine .arr ?_
  intro v hv
  obtain ⟨a, ha, rfl⟩ := List.mem_map.1 hv
  exact h a ha

theorem blanks_newline (level : Nat) : Blanks (newline level) := by
  intro c hc
  rcases List.mem_cons.1 hc with rfl | hc
  · decide
  · rw [(List.mem_replicate.1 hc).2]
    decide

theorem blanks_space : Blanks [' '] := by
  intro c hc
  rw [List.mem_singleton.1 hc]
  decide

theorem blanks_nil : Blanks [] :=
  fun _ h => absurd h List.not_mem_nil

/-- Items are spelled one after the other, if each is spelled, with the same blanks in front of each
of them. -/
theorem written_items {b b' : List Char} {write : Json → List Char} {more : List Json → List Char}
    (hb : Blanks b) (hb' : Blanks b') (hlast : more [] = b' ++ [']'])
    (hmore : ∀ v rest, more (v :: rest) = ',' :: (b ++ (write v ++ more rest))) {v : Json}
    {rest : List Json} (h : ∀ w ∈ v :: rest, Written (.value w) (write w)) :
    Written (.items (v :: rest)) (b ++ (write v ++ more rest)) := by
  induction rest generalizing v with
  | nil =>
      rw [hlast]
      exact .lastItem hb (h v List.mem_cons_self) hb'
  | cons w rest ih =>
      rw [hmore]
      exact .item hb (h v List.mem_cons_self) blanks_nil
        (ih fun u hu => h u (List.mem_cons_of_mem v hu))

/-- Members are spelled one after the other, if the value of each is, with the same blanks in front
of each key and of each value. -/
theorem written_members {b b' c : List Char} {write : Json → List Char}
    {more : List (Option String × Json) → List Char} (hb : Blanks b) (hb' : Blanks b')
    (hc : Blanks c) (hlast : more [] = b' ++ ['\x7d'])
    (hmore : ∀ key v rest, more ((key, v) :: rest) =
      ',' :: (b ++ (literal key ++ ':' :: (c ++ (write v ++ more rest)))))
    {key : Option String} {v : Json} {rest : List (Option String × Json)}
    (h : ∀ m ∈ (key, v) :: rest, Written (.value m.2) (write m.2)) :
    Written (.members ((key, v) :: rest))
      (b ++ (literal key ++ ':' :: (c ++ (write v ++ more rest)))) := by
  induction rest generalizing key v with
  | nil =>
      rw [hlast]
      exact .lastMember hb (literalWritten_literal key) blanks_nil hc (h _ List.mem_cons_self) hb'
  | cons m rest ih =>
      obtain ⟨key', w⟩ := m
      rw [hmore]
      exact .member hb (literalWritten_literal key) blanks_nil hc (h _ List.mem_cons_self) blanks_nil
        (ih fun u hu => h u (List.mem_cons_of_mem (key, v) hu))

theorem written_prettyItems {level : Nat} {v : Json} {rest : List Json}
    (h : ∀ w ∈ v :: rest, Written (.value w) (prettyChars (level + 1) w)) :
    Written (.items (v :: rest))
      (newline (level + 1) ++ (prettyChars (level + 1) v ++ prettyItems level rest)) := by
  refine written_items (blanks_newline _) (blanks_newline level) rfl ?_ h
  intro w rest
  rw [prettyItems, List.append_assoc, List.cons_append]

theorem written_prettyMembers {level : Nat} {key : Option String} {v : Json}
    {rest : List (Option String × Json)}
    (h : ∀ m ∈ (key, v) :: rest, Written (.value m.2) (prettyChars (level + 1) m.2)) :
    Written (.members ((key, v) :: rest))
      (newline (level + 1) ++ (literal key ++
        ':' :: ' ' :: (prettyChars (level + 1) v ++ prettyMembers level rest))) := by
  refine written_members (blanks_newline _) (blanks_newline level) blanks_space rfl ?_ h
  intro key w rest
  simp only [prettyMembers, List.append_assoc, List.cons_append, List.nil_append]

/-- The pretty layout of a value is a spelling of it, at any level. -/
theorem written_prettyChars {v : Json} (h : Proper v) (level : Nat) :
    Written (.value v) (prettyChars level v) := by
  induction h generalizing level with
  | null => exact .nullWord
  | @bool b =>
      cases b with
      | true => exact .trueWord
      | false => exact .falseWord
  | num hn => exact .num (number_written hn)
  | str => exact .str (literalWritten_literal _)
  | @arr items _ ih =>
      cases items with
      | nil => exact .noItems blanks_nil
      | cons v rest =>
          have hitems := written_prettyItems fun w hw => ih w hw (level + 1)
          rw [prettyChars, List.append_assoc]
          exact .arr hitems
  | @obj members _ ih =>
      cases members with
      | nil => exact .noMembers blanks_nil
      | cons m rest =>
          obtain ⟨key, v⟩ := m
          have hmembers := written_prettyMembers fun m hm => ih m hm (level + 1)
          rw [prettyChars, List.append_assoc, List.append_assoc]
          exact .obj hmembers

theorem written_compactItems {v : Json} {rest : List Json}
    (h : ∀ w ∈ v :: rest, Written (.value w) (compactChars w)) :
    Written (.items (v :: rest)) (compactChars v ++ compactItems rest) := by
  refine written_items blanks_nil blanks_nil rfl ?_ h
  intro w rest
  rw [compactItems]
  rfl

theorem written_compactMembers {key : Option String} {v : Json}
    {rest : List (Option String × Json)}
    (h : ∀ m ∈ (key, v) :: rest, Written (.value m.2) (compactChars m.2)) :
    Written (.members ((key, v) :: rest))
      (literal key ++ ':' :: (compactChars v ++ compactMembers rest)) := by
  refine written_members blanks_nil blanks_nil blanks_nil rfl ?_ h
  intro key w rest
  simp only [compactMembers, List.append_assoc, List.cons_append, List.nil_append]

/-- The compact layout of a value is a spelling of it. -/
theorem written_compactChars {v : Json} (h : Proper v) : Written (.value v) (compactChars v) := by
  induction h with
  | null => exact .nullWord
  | @bool b =>
      cases b with
      | true => exact .trueWord
      | false => exact .falseWord
  | num hn => exact .num (number_written hn)
  | str => exact .str (literalWritten_literal _)
  | @arr items _ ih =>
      cases items with
      | nil => exact .noItems blanks_nil
      | cons v rest => exact .arr (written_compactItems ih)
  | @obj members _ ih =>
      cases members with
      | nil => exact .noMembers blanks_nil
      | cons m rest =>
          obtain ⟨key, v⟩ := m
          have hmembers := written_compactMembers ih
          rw [compactChars, List.append_assoc]
          exact .obj hmembers

/-- What is printed is read back. -/
theorem parse?_pretty {v : Json} (h : Proper v) : parse? v.pretty = some v := by
  have hread := parse?_of_written blanks_nil (written_prettyChars h 0) blanks_nil
  rwa [List.nil_append, List.append_nil] at hread

end ModuleGraph.Json
