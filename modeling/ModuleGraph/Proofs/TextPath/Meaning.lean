import ModuleGraph.Proofs.TextPath.NormalForm

/-!
# What normalizing keeps of a path

A path is normalized into one that leads from every stack of directories to the same place
(`reach_normalize`), and starts at the root if and only if the path does. Nothing else is kept: two
paths that lead alike are normalized into one (`normalize_eq_of_reach_eq`). It is enough for this
that they lead alike from stacks that hold names only, and it need not be asked whether they start
at the root, since a relative path can be told from an absolute one by a stack that is deep enough.

So a normalized path stands for all that lead where it does (`normalize_faithful`). In particular it
stands for itself (`normalize_normalize`).
-/

namespace ModuleGraph.TextPath

/-- Normalizing does not change where a path leads. -/
theorem reach_normalize (path : List Char) (base : List (List Char)) :
    reach (normalize path) base = reach path base := by
  obtain ⟨form, -, htext, happly⟩ := exists_normalForm path
  rw [htext, form.reach_text, happly]

theorem isAbsolute_normalize (path : List Char) :
    isAbsolute (unify (normalize path)) = isAbsolute (unify path) := by
  obtain ⟨form, habs, htext, -⟩ := exists_normalForm path
  rw [htext, unify_of_no_backslash form.no_backslash_text, form.isAbsolute_text, habs]

/-- Paths that lead alike from every stack of names are normalized into one. -/
theorem normalize_eq_of_reach_eq {p q : List Char}
    (h : ∀ base, (∀ name ∈ base, IsName name) → reach p base = reach q base) :
    normalize p = normalize q := by
  obtain ⟨form, -, hp, hform⟩ := exists_normalForm p
  obtain ⟨other, -, hq, hother⟩ := exists_normalForm q
  have hsame : form = other := by
    refine NormalForm.eq_of_apply_eq ?_
    intro base hbase
    rw [hform, hother]
    exact h base hbase
  rw [hp, hq, hsame]

theorem normalize_normalize (path : List Char) : normalize (normalize path) = normalize path := by
  refine normalize_eq_of_reach_eq ?_
  intro base _
  exact reach_normalize path base

/-- A path and what it is normalized into lead from any stack of directories to the same place, and
two paths are normalized into one if and only if they both start at the root or both do not, and
lead from each stack to the same place. -/
theorem normalize_faithful :
    (∀ path base, reach (normalize path) base = reach path base) ∧
    ∀ p q, normalize p = normalize q ↔
      isAbsolute (unify p) = isAbsolute (unify q) ∧ ∀ base, reach p base = reach q base := by
  refine ⟨reach_normalize, ?_⟩
  intro p q
  constructor
  · intro h
    refine ⟨?_, ?_⟩
    · rw [← isAbsolute_normalize p, h, isAbsolute_normalize]
    · intro base
      rw [← reach_normalize p, h, reach_normalize]
  · rintro ⟨-, hreach⟩
    refine normalize_eq_of_reach_eq ?_
    intro base _
    exact hreach base

end ModuleGraph.TextPath
