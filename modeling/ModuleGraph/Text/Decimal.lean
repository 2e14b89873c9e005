/-!
# Decimal digits

Natural numbers as they are written in base ten, without leading zeros, and what a run of digits
is worth. Main statement: what is written is worth the number.
-/

namespace ModuleGraph.Text.Decimal

def digit (n : Nat) : Char :=
  Char.ofNat (48 + n)

def write (n : Nat) : List Char :=
  if n < 10 then [digit n] else write (n / 10) ++ [digit (n % 10)]

def worth (c : Char) : Nat :=
  c.toNat - 48

/-- What a run of digits is worth. -/
def value (cs : List Char) : Nat :=
  cs.foldl (fun n c => n * 10 + worth c) 0

theorem worth_digit {n : Nat} (h : n < 10) : worth (digit n) = n :=
  (by decide : ∀ n < 10, worth (digit n) = n) n h

theorem isDigit_digit {n : Nat} (h : n < 10) : (digit n).isDigit = true :=
  (by decide : ∀ n < 10, (digit n).isDigit = true) n h

theorem value_write (n : Nat) : value (write n) = n := by
  induction n using write.induct with
  | case1 n h =>
    unfold write
    simp [h, value, worth_digit]
  | case2 n h ih =>
    unfold write
    rw [if_neg h]
    simp only [value, List.foldl_append, List.foldl_cons, List.foldl_nil] at ih ⊢
    rw [ih, worth_digit (Nat.mod_lt _ (by decide))]
    omega

theorem isDigit_of_mem_write {n : Nat} {c : Char} (h : c ∈ write n) : c.isDigit = true := by
  induction n using write.induct with
  | case1 n hn =>
    unfold write at h
    simp only [hn, if_true, List.mem_singleton] at h
    rw [h]
    exact isDigit_digit hn
  | case2 n hn ih =>
    unfold write at h
    rw [if_neg hn, List.mem_append, List.mem_singleton] at h
    rcases h with h | h
    · exact ih h
    · rw [h]
      exact isDigit_digit (Nat.mod_lt _ (by decide))

theorem write_ne_nil (n : Nat) : write n ≠ [] := by
  unfold write
  split
  · exact List.cons_ne_nil _ _
  · exact List.append_ne_nil_of_right_ne_nil _ (List.cons_ne_nil _ _)

theorem write_zero : write 0 = ['0'] := by
  rw [write]
  rfl

/-- A number other than zero is not written with a leading zero. -/
theorem head?_write {n : Nat} (h : n ≠ 0) : (write n).head? ≠ some '0' := by
  induction n using write.induct with
  | case1 n hn =>
    have hdigit : ∀ n < 10, n ≠ 0 → (some (digit n)) ≠ some '0' := by decide
    unfold write
    rw [if_pos hn]
    exact hdigit n hn h
  | case2 n hn ih =>
    have hfront := ih (by omega)
    obtain ⟨c, front, heq⟩ := List.exists_cons_of_ne_nil (write_ne_nil (n / 10))
    unfold write
    rw [if_neg hn, heq]
    rwa [heq] at hfront

end ModuleGraph.Text.Decimal
