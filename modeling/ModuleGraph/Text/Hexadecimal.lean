/-!
# Hexadecimal digits

The digits of base sixteen. They are written in lower case and read in either case.
-/

namespace ModuleGraph.Text.Hexadecimal

/-- The digit for a number below sixteen. -/
def digit (n : Nat) : Char :=
  if n < 10 then Char.ofNat (48 + n) else Char.ofNat (87 + n)

def worth? (c : Char) : Option Nat :=
  if '0' ≤ c ∧ c ≤ '9' then some (c.toNat - 48)
  else if 'a' ≤ c ∧ c ≤ 'f' then some (c.toNat - 87)
  else if 'A' ≤ c ∧ c ≤ 'F' then some (c.toNat - 55)
  else none

/-- What a run of digits is worth, if all of them are digits. -/
def value? (cs : List Char) : Option Nat :=
  cs.foldlM (fun n c => (worth? c).map (n * 16 + ·)) 0

theorem worth?_digit {n : Nat} (h : n < 16) : worth? (digit n) = some n :=
  (by decide : ∀ n < 16, worth? (digit n) = some n) n h

/-- The four digits of a number that two digits hold. -/
theorem value?_two {n : Nat} (h : n < 0x100) :
    value? ['0', '0', digit (n / 16), digit (n % 16)] = some n := by
  have hzero : worth? '0' = some 0 := by decide
  have hhigh : worth? (digit (n / 16)) = some (n / 16) := worth?_digit (by omega)
  have hlow : worth? (digit (n % 16)) = some (n % 16) := worth?_digit (by omega)
  have hn : n / 16 * 16 + n % 16 = n := Nat.div_add_mod' n 16
  simp [value?, hzero, hhigh, hlow, hn]

end ModuleGraph.Text.Hexadecimal
