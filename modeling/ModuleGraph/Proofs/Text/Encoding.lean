import ModuleGraph.Text.Utf8

/-!
# Bytes that are text

A character is read from the very bytes that it is written as (`chunk_eq_some`): the ranges that a
first byte sets for the next one leave out overlong forms, surrogates and what is beyond the last
code point, so no other bytes are read as that character. Bytes that are text are therefore
determined by the text (`encode_of_decode?`), and a text is read from the bytes that it is written
as (`decode?_encode`). Of bytes that are not text, the first holds for the characters among their
parts: an ASCII character that is shown is one of the bytes (`mem_of_mem_decodeLossy`), and what is
shown without a replacement character is text (`eq_encode_of_decodeLossy`).
-/

namespace ModuleGraph.Text.Utf8

variable {bytes rest : List UInt8} {ch : Char}

/-! ## A character as bytes -/

theorem toNat_ofNat {n : Nat} (h : n.isValidChar) : (Char.ofNat n).val.toNat = n := by
  rw [Char.ofNat, dif_pos h]
  rfl

theorem ofNat_eq {n : Nat} {a : UInt8} (h : a.toNat = n) : UInt8.ofNat n = a := by
  rw [← h, UInt8.ofNat_toNat]

theorem utf8EncodeChar_of_one {v : Nat} {a : UInt8} (h : v < 0x80) (ha : a.toNat = v) :
    String.utf8EncodeChar (Char.ofNat v) = [a] := by
  rw [String.utf8EncodeChar, toNat_ofNat (Or.inl (by omega)), if_pos (by omega), ofNat_eq ha]

theorem utf8EncodeChar_of_two {v : Nat} {a b : UInt8} (hlow : 0x80 ≤ v) (hhigh : v < 0x800)
    (ha : a.toNat = 0xC0 + v / 64) (hb : b.toNat = 0x80 + v % 64) :
    String.utf8EncodeChar (Char.ofNat v) = [a, b] := by
  rw [String.utf8EncodeChar, toNat_ofNat (Or.inl (by omega)), if_neg (by omega), if_pos (by omega),
    ofNat_eq (a := a) (by omega), ofNat_eq (a := b) (by omega)]

theorem utf8EncodeChar_of_three {v : Nat} {a b c : UInt8} (hlow : 0x800 ≤ v) (hhigh : v < 0x10000)
    (hscalar : v < 0xD800 ∨ 0xDFFF < v) (ha : a.toNat = 0xE0 + v / 4096)
    (hb : b.toNat = 0x80 + v / 64 % 64) (hc : c.toNat = 0x80 + v % 64) :
    String.utf8EncodeChar (Char.ofNat v) = [a, b, c] := by
  have hvalid : v.isValidChar := hscalar.imp_right fun h => ⟨h, by omega⟩
  rw [String.utf8EncodeChar, toNat_ofNat hvalid, if_neg (by omega), if_neg (by omega),
    if_pos (by omega), ofNat_eq (a := a) (by omega), ofNat_eq (a := b) (by omega),
    ofNat_eq (a := c) (by omega)]

theorem utf8EncodeChar_of_four {v : Nat} {a b c d : UInt8} (hlow : 0x10000 ≤ v)
    (hhigh : v < 0x110000) (ha : a.toNat = 0xF0 + v / 262144) (hb : b.toNat = 0x80 + v / 4096 % 64)
    (hc : c.toNat = 0x80 + v / 64 % 64) (hd : d.toNat = 0x80 + v % 64) :
    String.utf8EncodeChar (Char.ofNat v) = [a, b, c, d] := by
  have hvalid : v.isValidChar := Or.inr ⟨by omega, hhigh⟩
  rw [String.utf8EncodeChar, toNat_ofNat hvalid, if_neg (by omega), if_neg (by omega),
    if_neg (by omega), ofNat_eq (a := a) (by omega), ofNat_eq (a := b) (by omega),
    ofNat_eq (a := c) (by omega), ofNat_eq (a := d) (by omega)]

/-! ## The bytes of a character that is read -/

/-- A sequence that owes a byte goes on with one that fits. -/
theorem continuation_succ_eq_some {n low high acc : Nat}
    (h : continuation (n + 1) low high acc bytes = (some ch, rest)) :
    ∃ b more, bytes = b :: more ∧ low ≤ b.toNat ∧ b.toNat ≤ high ∧
      continuation n 0x80 0xBF (acc * 64 + b.toNat % 64) more = (some ch, rest) := by
  cases bytes with
  | nil => cases h
  | cons b more =>
      rw [continuation] at h
      split at h
      · next hfits => exact ⟨b, more, rfl, hfits.1, hfits.2, h⟩
      · cases h

theorem continuation_zero_eq_some {low high acc : Nat}
    (h : continuation 0 low high acc bytes = (some ch, rest)) :
    Char.ofNat acc = ch ∧ bytes = rest := by
  cases h
  exact ⟨rfl, rfl⟩

/-- What a first byte promises, by the number of bytes that follow it. -/
theorem lead?_eq_some {n : Nat} {l : Lead} (h : lead? n = some l) :
    (l.following = 1 ∧ n = 0xC0 + l.bits ∧ 2 ≤ l.bits ∧ l.bits < 32 ∧
      l.low = 0x80 ∧ l.high = 0xBF) ∨
    (l.following = 2 ∧ n = 0xE0 + l.bits ∧ l.bits < 16 ∧
      0x80 ≤ l.low ∧ l.high ≤ 0xBF ∧ (l.bits = 0 → l.low = 0xA0) ∧ (l.bits = 13 → l.high = 0x9F)) ∨
    (l.following = 3 ∧ n = 0xF0 + l.bits ∧ l.bits < 5 ∧
      0x80 ≤ l.low ∧ l.high ≤ 0xBF ∧ (l.bits = 0 → l.low = 0x90) ∧ (l.bits = 4 → l.high = 0x8F)) := by
  unfold lead? at h
  repeat' split at h
  all_goals simp only [Option.some.injEq, reduceCtorEq] at h
  all_goals subst h
  all_goals dsimp only
  all_goals omega

/-- A sequence that is read as a character after its first byte is what the character is written
as. -/
theorem continuation_eq_some {b : UInt8} {l : Lead} (hlead : lead? b.toNat = some l)
    (h : continuation l.following l.low l.high l.bits bytes = (some ch, rest)) :
    b :: bytes = String.utf8EncodeChar ch ++ rest := by
  rcases lead?_eq_some hlead with ⟨hn, hbits⟩ | ⟨hn, hbits⟩ | ⟨hn, hbits⟩
  · rw [hn] at h
    obtain ⟨b₁, _, rfl, hlow, hhigh, h⟩ := continuation_succ_eq_some h
    obtain ⟨rfl, rfl⟩ := continuation_zero_eq_some h
    rw [utf8EncodeChar_of_two (a := b) (b := b₁) (by omega) (by omega) (by omega) (by omega)]
    rfl
  · rw [hn] at h
    obtain ⟨b₁, _, rfl, hlow, hhigh, h⟩ := continuation_succ_eq_some h
    obtain ⟨b₂, _, rfl, hlow₂, hhigh₂, h⟩ := continuation_succ_eq_some h
    obtain ⟨rfl, rfl⟩ := continuation_zero_eq_some h
    rw [utf8EncodeChar_of_three (a := b) (b := b₁) (c := b₂) (by omega) (by omega) (by omega)
      (by omega) (by omega) (by omega)]
    rfl
  · rw [hn] at h
    obtain ⟨b₁, _, rfl, hlow, hhigh, h⟩ := continuation_succ_eq_some h
    obtain ⟨b₂, _, rfl, hlow₂, hhigh₂, h⟩ := continuation_succ_eq_some h
    obtain ⟨b₃, _, rfl, hlow₃, hhigh₃, h⟩ := continuation_succ_eq_some h
    obtain ⟨rfl, rfl⟩ := continuation_zero_eq_some h
    rw [utf8EncodeChar_of_four (a := b) (b := b₁) (c := b₂) (d := b₃) (by omega) (by omega)
      (by omega) (by omega) (by omega) (by omega)]
    rfl

/-- A character that is read is written as the bytes it was read from. -/
theorem chunk_eq_some {b : UInt8} (h : chunk b bytes = (some ch, rest)) :
    b :: bytes = String.utf8EncodeChar ch ++ rest := by
  unfold chunk at h
  split at h
  · next hb =>
      cases h
      rw [utf8EncodeChar_of_one hb rfl]
      rfl
  · split at h
    · next l hlead => exact continuation_eq_some hlead h
    · cases h

/-! ## Text -/

/-- Bytes that read as text are the bytes the text is written as. -/
theorem encode_of_decode? {s : String} (h : decode? bytes = some s) : encode s = bytes := by
  obtain ⟨cs, hcs, rfl⟩ := Option.map_eq_some_iff.1 h
  clear h
  rw [encode, String.toList_ofList]
  induction bytes using chunks.induct generalizing cs with
  | case1 =>
      rw [chunks] at hcs
      cases hcs
      rfl
  | case2 b bytes ih =>
      rw [chunks] at hcs
      cases hchunk : chunk b bytes with
      | mk part rest =>
          rw [hchunk] at hcs ih
          cases part with
          | none => simp at hcs
          | some c =>
              simp only [List.mapM_cons, id, Option.pure_def, Option.bind_eq_bind,
                Option.bind_some, Option.bind_eq_some_iff, Option.some.injEq] at hcs
              obtain ⟨cs, hrest, rfl⟩ := hcs
              rw [List.flatMap_cons, ih cs hrest, chunk_eq_some hchunk]

/-! ## Reading what is written -/

theorem toNat_ofNat_byte {n : Nat} (h : n < 256) : (UInt8.ofNat n).toNat = n := by
  rw [UInt8.toNat_ofNat', Nat.mod_eq_of_lt h]

theorem lead?_two {n : Nat} (hlow : 0xC2 ≤ n) (hhigh : n ≤ 0xDF) :
    lead? n = some ⟨n - 0xC0, 1, 0x80, 0xBF⟩ :=
  if_pos ⟨hlow, hhigh⟩

theorem lead?_three {n : Nat} (hlow : 0xE0 ≤ n) (hhigh : n ≤ 0xEF) : ∃ low high,
    lead? n = some ⟨n - 0xE0, 2, low, high⟩ ∧ (low = 0x80 ∨ n = 0xE0 ∧ low = 0xA0) ∧
      (high = 0xBF ∨ n = 0xED ∧ high = 0x9F) := by
  unfold lead?
  rw [if_neg (by omega)]
  split
  · next h => exact ⟨0xA0, 0xBF, by rw [h], Or.inr ⟨h, rfl⟩, Or.inl rfl⟩
  split
  · next h => exact ⟨0x80, 0x9F, by rw [h], Or.inl rfl, Or.inr ⟨h, rfl⟩⟩
  · rw [if_pos (by omega)]
    exact ⟨0x80, 0xBF, rfl, Or.inl rfl, Or.inl rfl⟩

theorem lead?_four {n : Nat} (hlow : 0xF0 ≤ n) (hhigh : n ≤ 0xF4) : ∃ low high,
    lead? n = some ⟨n - 0xF0, 3, low, high⟩ ∧ (low = 0x80 ∨ n = 0xF0 ∧ low = 0x90) ∧
      (high = 0xBF ∨ n = 0xF4 ∧ high = 0x8F) := by
  unfold lead?
  rw [if_neg (by omega), if_neg (by omega), if_neg (by omega), if_neg (by omega)]
  split
  · next h => exact ⟨0x90, 0xBF, by rw [h], Or.inr ⟨h, rfl⟩, Or.inl rfl⟩
  split
  · next h => exact ⟨0x80, 0xBF, rfl, Or.inl rfl, Or.inl rfl⟩
  · rw [if_pos (by omega)]
    have h : n = 0xF4 := by omega
    exact ⟨0x80, 0x8F, by rw [h], Or.inl rfl, Or.inr ⟨h, rfl⟩⟩

theorem chunk_of_lead {n : Nat} {l : Lead} (hlow : 0x80 ≤ n) (hhigh : n < 256)
    (h : lead? n = some l) :
    chunk (UInt8.ofNat n) bytes = continuation l.following l.low l.high l.bits bytes := by
  rw [chunk, toNat_ofNat_byte hhigh, if_neg (by omega), h]

/-- A byte that fits is taken in. -/
theorem continuation_ofNat {n low high acc b : Nat} (hlow : low ≤ b) (hhigh : b ≤ high)
    (hb : b < 256) : continuation (n + 1) low high acc (UInt8.ofNat b :: bytes) =
      continuation n 0x80 0xBF (acc * 64 + b % 64) bytes := by
  rw [continuation, toNat_ofNat_byte hb, if_pos ⟨hlow, hhigh⟩]

theorem continuation_zero_of_eq {low high acc : Nat} (ch : Char) (h : acc = ch.val.toNat) :
    continuation 0 low high acc bytes = (some ch, bytes) := by
  have hch : Char.ofNat acc = ch := h ▸ Char.ofNat_toNat ch
  rw [continuation, hch]

/-- A character is read from the bytes it is written as. -/
theorem exists_chunk_eq (ch : Char) : ∃ b more, String.utf8EncodeChar ch = b :: more ∧
    ∀ rest, chunk b (more ++ rest) = (some ch, rest) := by
  obtain ⟨v, hv⟩ : ∃ v, v = ch.val.toNat := ⟨_, rfl⟩
  have hvalid : v < 0xD800 ∨ 0xDFFF < v ∧ v < 0x110000 := hv ▸ ch.valid
  rw [String.utf8EncodeChar, ← hv]
  split
  · refine ⟨_, [], rfl, fun rest => ?_⟩
    rw [chunk, toNat_ofNat_byte (by omega), if_pos (by omega), hv]
    exact congrArg (some ·, rest) (Char.ofNat_toNat ch)
  split
  · refine ⟨_, _, rfl, fun rest => ?_⟩
    rw [chunk_of_lead (by omega) (by omega) (lead?_two (by omega) (by omega)), List.cons_append,
      continuation_ofNat (by dsimp only; omega) (by dsimp only; omega) (by omega),
      continuation_zero_of_eq ch (by dsimp only; omega)]
    rfl
  split
  · refine ⟨_, _, rfl, fun rest => ?_⟩
    obtain ⟨low, high, hlead, hlow, hhigh⟩ :=
      @lead?_three (v / 4096 % 16 + 224) (by omega) (by omega)
    rw [chunk_of_lead (by omega) (by omega) hlead, List.cons_append, List.cons_append,
      continuation_ofNat (by dsimp only; omega) (by dsimp only; omega) (by omega),
      continuation_ofNat (by omega) (by omega) (by omega),
      continuation_zero_of_eq ch (by dsimp only; omega)]
    rfl
  · refine ⟨_, _, rfl, fun rest => ?_⟩
    obtain ⟨low, high, hlead, hlow, hhigh⟩ :=
      @lead?_four (v / 262144 % 8 + 240) (by omega) (by omega)
    rw [chunk_of_lead (by omega) (by omega) hlead, List.cons_append, List.cons_append,
      List.cons_append, continuation_ofNat (by dsimp only; omega) (by dsimp only; omega) (by omega),
      continuation_ofNat (by omega) (by omega) (by omega),
      continuation_ofNat (by omega) (by omega) (by omega),
      continuation_zero_of_eq ch (by dsimp only; omega)]
    rfl

/-- Text is read from the bytes it is written as. -/
theorem decode?_encode (s : String) : decode? (encode s) = some s := by
  have hchunks : ∀ cs : List Char, chunks (cs.flatMap String.utf8EncodeChar) = cs.map some := by
    intro cs
    induction cs with
    | nil => rw [List.flatMap_nil, chunks, List.map_nil]
    | cons ch cs ih =>
        obtain ⟨b, more, hwritten, hread⟩ := exists_chunk_eq ch
        rw [List.flatMap_cons, hwritten, List.cons_append, chunks, hread, ih, List.map_cons]
  have hchars : (s.toList.map some).mapM id = some s.toList := by
    rw [List.mapM_map]
    exact List.mapM_pure.trans (congrArg some (List.map_id _))
  rw [decode?, encode, hchunks, hchars, Option.map_some, String.ofList_toList]

/-! ## What is shown -/

theorem continuation_suffix (n low high acc : Nat) (bytes : List UInt8) :
    (continuation n low high acc bytes).2 <:+ bytes := by
  induction n generalizing low high acc bytes with
  | zero => exact List.suffix_rfl
  | succ n ih =>
      cases bytes with
      | nil => exact List.suffix_rfl
      | cons b bytes =>
          rw [continuation]
          split
          · exact (ih ..).trans (List.suffix_cons b bytes)
          · exact List.suffix_rfl

theorem chunk_suffix (b : UInt8) (bytes : List UInt8) : (chunk b bytes).2 <:+ bytes := by
  unfold chunk
  split
  · exact List.suffix_rfl
  · split
    · exact continuation_suffix ..
    · exact List.suffix_rfl

/-- Bytes are text if no part of them is ill formed. -/
theorem isSome_decode?_iff : (decode? bytes).isSome = true ↔ none ∉ chunks bytes := by
  rw [decode?, Option.isSome_map]
  generalize chunks bytes = parts
  induction parts with
  | nil => simp
  | cons part parts ih =>
      cases part with
      | none => simp
      | some c =>
          have hparts : none ∉ some c :: parts ↔ none ∉ parts := by simp
          rw [hparts, ← ih, List.mapM_cons]
          cases parts.mapM id <;> rfl

/-- A text is shown as itself. -/
theorem decodeLossy_encode (s : String) : decodeLossy (encode s) = s :=
  decodeLossy_of_decode? (decode?_encode s)

/-- What is shown without a replacement character is text. -/
theorem eq_encode_of_decodeLossy {s : String} (h : decodeLossy bytes = s)
    (hs : '\uFFFD' ∉ s.toList) : bytes = encode s := by
  have hnone : none ∉ chunks bytes := by
    intro hmem
    rw [← h, decodeLossy, String.toList_ofList] at hs
    exact hs (List.mem_map_of_mem hmem)
  obtain ⟨t, ht⟩ := Option.isSome_iff_exists.1 (isSome_decode?_iff.2 hnone)
  rw [← encode_of_decode? ht, ← decodeLossy_of_decode? ht, h]

/-- An ASCII character that is shown is one of the bytes. -/
theorem mem_of_mem_decodeLossy {b : UInt8} (hb : b.toNat < 0x80)
    (h : Char.ofNat b.toNat ∈ (decodeLossy bytes).toList) : b ∈ bytes := by
  rw [decodeLossy, String.toList_ofList, List.mem_map] at h
  obtain ⟨part, hpart, heq⟩ := h
  induction bytes using chunks.induct with
  | case1 =>
      rw [chunks] at hpart
      cases hpart
  | case2 first bytes ih =>
      rw [chunks, List.mem_cons] at hpart
      rcases hpart with hfirst | hlater
      · cases part with
        | none =>
            -- what stands for an ill-formed part is not ASCII
            have hcode := congrArg (fun c : Char => c.val.toNat) heq
            rw [toNat_ofNat (Or.inl (by omega))] at hcode
            exact absurd (hcode ▸ hb) (by decide)
        | some ch =>
            rw [Option.getD_some] at heq
            rw [chunk_eq_some (Prod.ext hfirst.symm rfl), heq, utf8EncodeChar_of_one hb rfl]
            exact List.mem_cons_self
      · exact List.mem_cons_of_mem _ ((chunk_suffix first bytes).subset (ih hlater))

end ModuleGraph.Text.Utf8
