import ModuleGraph.Text.Blank
import ModuleGraph.Text.Word

/-!
# Runs of blanks and of word characters

A reader takes as many blanks, or as many word characters, as stand at the front of a text. What
it takes is known from outside only if the run ends where a part ends, so the facts about runs are
stated over a front all of which is in the class and a rest that `Stops` it.

No character is in both classes. This is what makes an import statement readable without coming
back: a name cannot run on into the blanks after it, nor can the blanks run on into a name.
-/

namespace ModuleGraph.Text

/-- `cs` does not go on with a character in the class `p`. -/
def Stops (p : Char → Bool) (cs : List Char) : Prop :=
  ∀ c ∈ cs.head?, p c = false

theorem stops_cons {p : Char → Bool} {c : Char} {cs : List Char} :
    Stops p (c :: cs) ↔ p c = false := by
  simp [Stops]

theorem dropWhile_append_of_stops {p : Char → Bool} {front rest : List Char}
    (hf : ∀ c ∈ front, p c = true) (hr : Stops p rest) :
    (front ++ rest).dropWhile p = rest := by
  rw [List.dropWhile_append_of_pos hf]
  cases rest with
  | nil => rfl
  | cons c rest =>
      exact List.dropWhile_cons_of_neg (by rw [stops_cons.1 hr]; exact Bool.false_ne_true)

theorem takeWhile_append_of_stops {p : Char → Bool} {front rest : List Char}
    (hf : ∀ c ∈ front, p c = true) (hr : Stops p rest) :
    (front ++ rest).takeWhile p = front := by
  have h := List.takeWhile_append_dropWhile (p := p) (l := front ++ rest)
  rw [dropWhile_append_of_stops hf hr] at h
  exact List.append_cancel_right h

/-- What is left when a run is dropped does not go on with it. -/
theorem stops_dropWhile (p : Char → Bool) (cs : List Char) : Stops p (cs.dropWhile p) := by
  intro c hc
  have hnot := List.head?_dropWhile_not p cs
  rw [Option.mem_def.1 hc] at hnot
  simpa using hnot

/-! ## The two classes are disjoint

There are twenty-five blanks, so the table of word characters is looked into twenty-five times. -/

/-- The code points of the blanks. -/
def blankCodes : List Nat :=
  [9, 10, 11, 12, 13, 0x20, 0x85, 0xA0, 0x1680, 0x2000, 0x2001, 0x2002, 0x2003, 0x2004, 0x2005,
    0x2006, 0x2007, 0x2008, 0x2009, 0x200A, 0x2028, 0x2029, 0x202F, 0x205F, 0x3000]

theorem toNat_mem_blankCodes {c : Char} (h : isBlank c = true) : c.toNat ∈ blankCodes := by
  simp only [isBlank, Bool.or_eq_true, Bool.and_eq_true, decide_eq_true_eq, beq_iff_eq] at h
  simp only [blankCodes, List.mem_cons, List.not_mem_nil, or_false]
  omega

theorem isWord_eq_false_of_isBlank {c : Char} (h : isBlank c = true) : isWord c = false := by
  have table : ∀ n ∈ blankCodes,
      (if n < 0x80 then
        (0x30 ≤ n && n ≤ 0x39) || (0x41 ≤ n && n ≤ 0x5A) || n == 0x5F || (0x61 ≤ n && n ≤ 0x7A)
      else wordRanges.any fun r => r.1 ≤ n && n ≤ r.2) = false := by decide +kernel
  exact table c.toNat (toNat_mem_blankCodes h)

theorem isBlank_eq_false_of_isWord {c : Char} (h : isWord c = true) : isBlank c = false := by
  refine Bool.eq_false_iff.2 fun hb => ?_
  rw [isWord_eq_false_of_isBlank hb] at h
  cases h

theorem not_mem_of_isWord {cs : List Char} (h : ∀ c ∈ cs, isWord c = true) {c : Char}
    (hc : isWord c = false) : c ∉ cs := by
  intro hmem
  rw [h c hmem] at hc
  cases hc

end ModuleGraph.Text
