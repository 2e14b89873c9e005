import ModuleGraph.Proofs.Text.Encoding

/-!
# Where shown text can be cut

A byte below 0x80 is a character of its own wherever it stands. No sequence goes on over it, so a
sequence that it interrupts is ill formed up to it, just as if the bytes ended there. Bytes can
therefore be shown part by part, cut at such a byte (`decodeLossy_append`), and such a byte is in a
text where its character is (`mem_encode_iff`).
-/

namespace ModuleGraph.Text.Utf8

variable {b : UInt8}

/-- A sequence goes on with bytes from 0x80 only. -/
theorem low_of_lead? {n : Nat} {l : Lead} (h : lead? n = some l) : 0x80 ≤ l.low := by
  unfold lead? at h
  repeat' split at h
  all_goals simp only [Option.some.injEq, reduceCtorEq] at h
  all_goals simp [← h]

theorem continuation_append (hb : b.toNat < 0x80) (rest : List UInt8) {n low high acc : Nat}
    (hlow : 0x80 ≤ low) (front : List UInt8) :
    continuation n low high acc (front ++ b :: rest) =
      ((continuation n low high acc front).1,
        (continuation n low high acc front).2 ++ b :: rest) := by
  induction n generalizing low high acc front with
  | zero => rfl
  | succ n ih =>
      cases front with
      | nil =>
          have hout : ¬ (low ≤ b.toNat ∧ b.toNat ≤ high) := by omega
          simp only [List.nil_append, continuation, if_neg hout]
      | cons c front =>
          rw [List.cons_append]
          by_cases hin : low ≤ c.toNat ∧ c.toNat ≤ high
          · simp only [continuation, if_pos hin]
            exact ih (Nat.le_refl _) front
          · simp only [continuation, if_neg hin, List.cons_append]

theorem chunk_append (hb : b.toNat < 0x80) (rest : List UInt8) (c : UInt8) (front : List UInt8) :
    chunk c (front ++ b :: rest) = ((chunk c front).1, (chunk c front).2 ++ b :: rest) := by
  unfold chunk
  split
  · rfl
  · cases hlead : lead? c.toNat with
    | none => rfl
    | some l => exact continuation_append hb rest (low_of_lead? hlead) front

theorem chunks_append (hb : b.toNat < 0x80) (front rest : List UInt8) :
    chunks (front ++ b :: rest) = chunks front ++ some (Char.ofNat b.toNat) :: chunks rest := by
  induction front using chunks.induct with
  | case1 => simp only [List.nil_append, chunks, chunk, if_pos hb]
  | case2 c front ih => rw [List.cons_append, chunks, chunk_append hb, ih, chunks, List.cons_append]

/-- Bytes on both sides of a byte below 0x80 are shown each on their own. -/
theorem decodeLossy_append (hb : b.toNat < 0x80) (front rest : List UInt8) :
    (decodeLossy (front ++ b :: rest)).toList =
      (decodeLossy front).toList ++ Char.ofNat b.toNat :: (decodeLossy rest).toList := by
  simp only [decodeLossy, String.toList_ofList, chunks_append hb, List.map_append, List.map_cons,
    Option.getD_some]

theorem decodeLossy_nil : (decodeLossy []).toList = [] := by
  rw [decodeLossy, chunks, String.toList_ofList, List.map_nil]

/-- A byte below 0x80 is in a text where its character is. -/
theorem mem_encode_iff (hb : b.toNat < 0x80) {s : String} :
    b ∈ encode s ↔ Char.ofNat b.toNat ∈ s.toList := by
  constructor
  · intro h
    obtain ⟨front, rest, heq⟩ := List.append_of_mem h
    rw [← decodeLossy_encode s, heq, decodeLossy_append hb]
    exact List.mem_append_right _ List.mem_cons_self
  · intro h
    rw [← decodeLossy_encode s] at h
    exact mem_of_mem_decodeLossy hb h

end ModuleGraph.Text.Utf8
