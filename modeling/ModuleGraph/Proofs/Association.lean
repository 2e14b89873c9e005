/-!
# Association lists

In a list of pairs whose first parts are all different, what is looked up is what is there. So the
order of the pairs does not matter.
-/

namespace ModuleGraph.Association

variable {α β : Type} [BEq α] [LawfulBEq α] {pairs pairs' : List (α × β)} {a : α} {b : β}

/-- Where keys are listed once, a key has what is listed with it. -/
theorem lookup_eq_some_iff_mem (h : (pairs.map (·.1)).Nodup) :
    pairs.lookup a = some b ↔ (a, b) ∈ pairs := by
  induction pairs with
  | nil => simp
  | cons head rest ih =>
      obtain ⟨first, old⟩ := head
      obtain ⟨hfirst, hrest⟩ := List.nodup_cons.1 h
      by_cases ha : a = first
      · subst ha
        have hnot : (a, b) ∉ rest := fun hmem => hfirst (List.mem_map.2 ⟨(a, b), hmem, rfl⟩)
        rw [List.lookup_cons_self, List.mem_cons, Option.some.injEq, Prod.mk.injEq]
        constructor
        · rintro rfl
          exact Or.inl ⟨rfl, rfl⟩
        · rintro (⟨-, rfl⟩ | hmem)
          · rfl
          · exact absurd hmem hnot
      · have hb : (a == first) = false := beq_eq_false_iff_ne.2 ha
        rw [List.lookup_cons, hb, ih hrest, List.mem_cons, Prod.mk.injEq]
        exact (or_iff_right fun heq => ha heq.1).symm

theorem lookup_eq_of_perm (h : (pairs.map (·.1)).Nodup) (hperm : pairs.Perm pairs') (a : α) :
    pairs.lookup a = pairs'.lookup a := by
  refine Option.ext fun b => ?_
  rw [lookup_eq_some_iff_mem h, lookup_eq_some_iff_mem ((hperm.map _).nodup_iff.1 h),
    hperm.mem_iff]

end ModuleGraph.Association
