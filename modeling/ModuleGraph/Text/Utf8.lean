/-!
# UTF-8

File contents and file names are bytes; statements and identifiers are text. `chunks` cuts bytes
into characters and maximal ill-formed parts, in one pass. Text that must be well formed is read
by `decode?`, which refuses any ill-formed part; text that is only shown is read by `decodeLossy`,
which writes U+FFFD for each of them.
-/

namespace ModuleGraph.Text.Utf8

/-- What a first byte promises: the bits it carries, how many bytes follow, and the range of the
byte after it. Overlong forms, surrogates and code points above U+10FFFF are excluded by that
range, so that a sequence is known to be ill formed at the earliest byte. -/
structure Lead where
  bits : Nat
  following : Nat
  low : Nat
  high : Nat

/-- The first bytes of sequences of two to four bytes. -/
def lead? (b : Nat) : Option Lead :=
  if 0xC2 ≤ b ∧ b ≤ 0xDF then some ⟨b - 0xC0, 1, 0x80, 0xBF⟩
  else if b = 0xE0 then some ⟨0, 2, 0xA0, 0xBF⟩
  else if b = 0xED then some ⟨0xD, 2, 0x80, 0x9F⟩
  else if 0xE1 ≤ b ∧ b ≤ 0xEF then some ⟨b - 0xE0, 2, 0x80, 0xBF⟩
  else if b = 0xF0 then some ⟨0, 3, 0x90, 0xBF⟩
  else if 0xF1 ≤ b ∧ b ≤ 0xF3 then some ⟨b - 0xF0, 3, 0x80, 0xBF⟩
  else if b = 0xF4 then some ⟨4, 3, 0x80, 0x8F⟩
  else none

/-- Reads the `n` bytes that a sequence still owes, the first of them between `low` and `high`,
into `acc`. A byte that does not fit is left for the next chunk. -/
def continuation : Nat → Nat → Nat → Nat → List UInt8 → Option Char × List UInt8
  | 0, _, _, acc, bytes => (some (Char.ofNat acc), bytes)
  | _ + 1, _, _, _, [] => (none, [])
  | n + 1, low, high, acc, b :: bytes =>
    if low ≤ b.toNat ∧ b.toNat ≤ high then
      continuation n 0x80 0xBF (acc * 64 + b.toNat % 64) bytes
    else (none, b :: bytes)

/-- The character that starts with `b`, or `none` for an ill-formed part, and the bytes after it. -/
def chunk (b : UInt8) (bytes : List UInt8) : Option Char × List UInt8 :=
  if b.toNat < 0x80 then (some (Char.ofNat b.toNat), bytes)
  else match lead? b.toNat with
    | some l => continuation l.following l.low l.high l.bits bytes
    | none => (none, bytes)

theorem length_continuation_le (n low high acc : Nat) (bytes : List UInt8) :
    (continuation n low high acc bytes).2.length ≤ bytes.length := by
  induction n generalizing low high acc bytes with
  | zero => exact Nat.le_refl _
  | succ n ih =>
    cases bytes with
    | nil => exact Nat.le_refl _
    | cons b bytes =>
      simp only [continuation]
      split
      · exact Nat.le_succ_of_le (ih ..)
      · exact Nat.le_refl _

theorem length_chunk_le (b : UInt8) (bytes : List UInt8) :
    (chunk b bytes).2.length ≤ bytes.length := by
  unfold chunk
  split
  · exact Nat.le_refl _
  · split
    · exact length_continuation_le ..
    · exact Nat.le_refl _

/-- Bytes as characters and ill-formed parts, in order; an ill-formed part is as long as it can be
while some text starts with it, and at least one byte. -/
def chunks : List UInt8 → List (Option Char)
  | [] => []
  | b :: bytes => (chunk b bytes).1 :: chunks (chunk b bytes).2
termination_by bytes => bytes.length
decreasing_by exact Nat.lt_succ_of_le (length_chunk_le b bytes)

def decode? (bytes : List UInt8) : Option String :=
  ((chunks bytes).mapM id).map String.ofList

/-- The text of any bytes, with U+FFFD for each ill-formed part. -/
def decodeLossy (bytes : List UInt8) : String :=
  String.ofList ((chunks bytes).map (·.getD '\uFFFD'))

def encode (s : String) : List UInt8 :=
  s.toList.flatMap String.utf8EncodeChar

/-- Text that reads as a whole reads the same when shown. -/
theorem decodeLossy_of_decode? {bytes : List UInt8} {s : String} (h : decode? bytes = some s) :
    decodeLossy bytes = s := by
  obtain ⟨cs, hcs, rfl⟩ := Option.map_eq_some_iff.1 h
  clear h
  unfold decodeLossy
  congr 1
  generalize chunks bytes = parts at hcs
  induction parts generalizing cs with
  | nil => simp_all
  | cons p parts ih =>
    cases p with
    | none => simp at hcs
    | some c =>
      simp only [List.mapM_cons, id, Option.pure_def, Option.bind_eq_bind, Option.bind_some,
        Option.bind_eq_some_iff, Option.some.injEq] at hcs
      obtain ⟨cs', hcs', rfl⟩ := hcs
      simp [ih cs' hcs']

end ModuleGraph.Text.Utf8
