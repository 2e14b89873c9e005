import ModuleGraph.Discovery

/-!
# Locations in order

Locations are sorted, and then only the first of equal ones is kept. What comes out is strictly
increasing and holds what went in (`pairwise_inOrder`, `mem_inOrder`). There is only one such list
(`eq_of_pairwise_lt`), so it does not matter in which order, or how often, locations were found.
-/

namespace ModuleGraph

namespace Discovery

variable {file : Location} {files files' : List Location}

/-! ## Dropping repetitions -/

theorem loop_cons (a b : Location) (files kept : List Location) :
    List.eraseRepsBy.loop (· == ·) a (b :: files) kept =
      if a = b then List.eraseRepsBy.loop (· == ·) a files kept
      else List.eraseRepsBy.loop (· == ·) b files (a :: kept) := by
  rw [List.eraseRepsBy.loop]
  by_cases hab : a = b
  · rw [if_pos hab, beq_iff_eq.2 hab]
  · rw [if_neg hab, beq_eq_false_iff_ne.2 hab]

theorem loop_eq_append (a : Location) (files kept : List Location) :
    List.eraseRepsBy.loop (· == ·) a files kept = kept.reverse ++ (a :: files).eraseReps := by
  induction files generalizing a kept with
  | nil => exact List.reverse_cons
  | cons b files ih =>
      change _ = kept.reverse ++ List.eraseRepsBy.loop (· == ·) a (b :: files) []
      rw [loop_cons, loop_cons, ih a, ih b, ih a [], ih b [a], List.reverse_cons]
      split
      · rfl
      · rw [List.append_assoc]
        rfl

theorem eraseReps_cons_cons (a b : Location) (files : List Location) :
    (a :: b :: files).eraseReps =
      if a = b then (a :: files).eraseReps else a :: (b :: files).eraseReps := by
  change List.eraseRepsBy.loop (· == ·) a (b :: files) [] = _
  rw [loop_cons, loop_eq_append, loop_eq_append]
  rfl

theorem mem_eraseReps_cons {a : Location} :
    file ∈ (a :: files).eraseReps ↔ file ∈ a :: files := by
  induction files generalizing a with
  | nil => exact Iff.rfl
  | cons b files ih =>
      rw [eraseReps_cons_cons]
      split
      · next hab =>
          rw [ih, hab]
          simp only [List.mem_cons, or_self_left]
      · rw [List.mem_cons, ih, List.mem_cons (b := a)]

theorem pairwise_eraseReps_cons {a : Location} (h : (a :: files).Pairwise (· ≤ ·)) :
    (a :: files).eraseReps.Pairwise (· < ·) := by
  induction files generalizing a with
  | nil => exact List.pairwise_singleton _ _
  | cons b files ih =>
      obtain ⟨ha, hrest⟩ := List.pairwise_cons.1 h
      rw [eraseReps_cons_cons]
      split
      · next hab =>
          rw [hab]
          exact ih hrest
      · next hab =>
          refine List.pairwise_cons.2 ⟨?_, ih hrest⟩
          have hlt : a < b := Std.lt_of_le_of_ne (ha b List.mem_cons_self) hab
          intro other hother
          rcases List.mem_cons.1 (mem_eraseReps_cons.1 hother) with rfl | hmem
          · exact hlt
          · exact Std.lt_of_lt_of_le hlt ((List.pairwise_cons.1 hrest).1 other hmem)

/-! ## In order -/

theorem mem_inOrder : file ∈ inOrder files ↔ file ∈ files := by
  have hperm := List.mergeSort_perm files fun a b => decide (a ≤ b)
  rw [← hperm.mem_iff, inOrder]
  cases files.mergeSort fun a b => decide (a ≤ b) with
  | nil => exact Iff.rfl
  | cons a rest => exact mem_eraseReps_cons

theorem pairwise_inOrder (files : List Location) : (inOrder files).Pairwise (· < ·) := by
  have htrans : ∀ a b c : Location, decide (a ≤ b) = true → decide (b ≤ c) = true →
      decide (a ≤ c) = true := by
    intro a b c hab hbc
    exact decide_eq_true (List.le_trans (of_decide_eq_true hab) (of_decide_eq_true hbc))
  have htotal : ∀ a b : Location, (decide (a ≤ b) || decide (b ≤ a)) = true := by
    intro a b
    simpa using List.le_total a b
  have hsorted : (files.mergeSort fun a b => decide (a ≤ b)).Pairwise (· ≤ ·) :=
    (List.pairwise_mergeSort htrans htotal files).imp of_decide_eq_true
  rw [inOrder]
  cases hfiles : files.mergeSort fun a b => decide (a ≤ b) with
  | nil => exact List.Pairwise.nil
  | cons a rest => exact pairwise_eraseReps_cons (hfiles ▸ hsorted)

/-- Strictly increasing lists that hold the same are the same. -/
theorem eq_of_pairwise_lt (h : files.Pairwise (· < ·)) (h' : files'.Pairwise (· < ·))
    (hmem : ∀ file, file ∈ files ↔ file ∈ files') : files = files' := by
  have hnodup : ∀ {l : List Location}, l.Pairwise (· < ·) → l.Nodup := by
    intro l hl
    have hne : l.Pairwise (· ≠ ·) := hl.imp Std.ne_of_lt
    exact hne
  have hperm := (List.perm_ext_iff_of_nodup (hnodup h) (hnodup h')).2 hmem
  exact hperm.eq_of_pairwise (fun a b _ _ hab hba => absurd hba (List.lt_asymm hab)) h h'

end Discovery

end ModuleGraph
