import ModuleGraph.Proofs.TextPath.Canonical
import ModuleGraph.Proofs.TextPath.Meaning
import ModuleGraph.Resolver

/-!
# Specifiers read from a directory

A joined path leads where the specifier leads from where the directory leads (`reach_join`). This is
so also in the cases that `join` keeps apart: an absolute specifier leads away from any directory,
and the empty directory leads nowhere, though a `/` behind it would lead to the root.

Joined paths are normalized, so two of them are the same if they lead alike from every stack. That
makes each law of joining a law of leading. The spelling of the directory and of the specifier does
not matter (`join_normalize`), and a second specifier can be written behind the first
(`join_join`), if the first is not empty and the second is relative: behind an empty one, or before
an absolute one, the `/` between them would not be a `/` between two segments of one path.
-/

namespace ModuleGraph.TextPath

variable {dir dir' raw raw' rest front : List Char}

theorem unify_unify (path : List Char) : unify (unify path) = unify path :=
  unify_of_no_backslash (no_backslash_unify path)

theorem unify_append_slash (front rest : List Char) :
    unify (front ++ '/' :: rest) = unify front ++ '/' :: unify rest :=
  List.map_append

theorem isAbsolute_unify_append (hne : front ≠ []) (rest : List Char) :
    isAbsolute (unify (front ++ '/' :: rest)) = isAbsolute (unify front) := by
  obtain ⟨c, cs, rfl⟩ := List.exists_cons_of_ne_nil hne
  rfl

/-! ## Where a path of two parts leads -/

theorem reach_unify (path : List Char) (base : List (List Char)) :
    reach (unify path) base = reach path base := by
  rw [reach, unify_unify, reach]

theorem reach_nil (base : List (List Char)) : reach [] base = base := rfl

theorem reach_of_absolute {path : List Char} (h : isAbsolute (unify path) = true)
    (base other : List (List Char)) : reach path base = reach path other := by
  rw [reach, reach, if_pos h, if_pos h]

theorem reach_append (hne : front ≠ []) (hrel : isAbsolute (unify rest) = false)
    (base : List (List Char)) :
    reach (front ++ '/' :: rest) base = reach rest (reach front base) := by
  have hfront := isAbsolute_unify_append hne rest
  rw [unify_append_slash] at hfront
  simp only [reach, hfront, hrel, unify_append_slash, List.splitOn_append_cons_self,
    List.foldl_append, Bool.false_eq_true, if_false]

/-- A joined path leads where the specifier leads from the directory. -/
theorem reach_join (dir raw : List Char) (base : List (List Char)) :
    reach (join dir raw) base = reach raw (reach dir base) := by
  by_cases habs : isAbsolute (unify raw) = true
  · rw [join, habs, Bool.true_or, if_pos rfl, reach_normalize, reach_unify]
    exact reach_of_absolute habs _ _
  rw [Bool.not_eq_true] at habs
  by_cases hdir : dir = []
  · rw [hdir, join, habs, List.isEmpty_nil, Bool.or_true, if_pos rfl, reach_normalize, reach_unify,
      reach_nil]
  · have hjoin : join dir raw = normalize (dir ++ '/' :: unify raw) := by
      rw [join, habs, List.isEmpty_eq_false_iff.2 hdir]
      rfl
    have habs' : isAbsolute (unify (unify raw)) = false := by rw [unify_unify, habs]
    rw [hjoin, reach_normalize, reach_append hdir habs', reach_unify]

/-! ## Joined paths are told by where they lead -/

theorem normalize_join (dir raw : List Char) : normalize (join dir raw) = join dir raw := by
  unfold join
  dsimp only
  split
  · exact normalize_normalize _
  · exact normalize_normalize _

theorem join_eq_join (h : ∀ base, reach raw (reach dir base) = reach raw' (reach dir' base)) :
    join dir raw = join dir' raw' := by
  rw [← normalize_join dir raw, ← normalize_join dir' raw']
  refine normalize_eq_of_reach_eq ?_
  intro base _
  rw [reach_join, reach_join, h]

/-! ## The laws of joining -/

/-- Only the normal forms of the directory and of the specifier count. -/
theorem join_normalize (dir raw : List Char) :
    join dir raw = join (normalize dir) (normalize raw) := by
  refine join_eq_join ?_
  intro base
  rw [reach_normalize, reach_normalize]

theorem join_congr (hdir : normalize dir = normalize dir') (hraw : normalize raw = normalize raw') :
    join dir raw = join dir' raw' := by
  rw [join_normalize, hdir, hraw, ← join_normalize]

theorem join_join (hraw : raw ≠ []) (hrest : isAbsolute (unify rest) = false) :
    join (join dir raw) rest = join dir (raw ++ '/' :: rest) := by
  refine join_eq_join ?_
  intro base
  rw [reach_join, reach_append hraw hrest]

/-- Joining asks for the normal forms of its two parts only, and so does a resolver: specifiers with
one normal form, in directories with one normal form, are the same to it. To join a path and then a
relative one is to join the two with a `/` between them. -/
theorem join_respelled :
    (∀ dir raw, join dir raw = join (normalize dir) (normalize raw)) ∧
    (∀ (r : Resolver) (dir dir' raw raw' : String),
      normalize dir.toList = normalize dir'.toList → normalize raw.toList = normalize raw'.toList →
      r.resolve raw dir = r.resolve raw' dir') ∧
    ∀ dir raw rest : List Char, raw ≠ [] → rest.head? ≠ some '/' → rest.head? ≠ some '\\' →
      join (join dir raw) rest = join dir (raw ++ '/' :: rest) := by
  refine ⟨join_normalize, ?_, ?_⟩
  · intro r dir dir' raw raw' hdir hraw
    simp only [Resolver.resolve, join_congr hdir hraw]
  · intro dir raw rest hraw hslash hback
    have hrest : isAbsolute (unify rest) = false := by
      rw [← Bool.not_eq_true, isAbsolute_unify_iff, not_or]
      exact ⟨hslash, hback⟩
    exact join_join hraw hrest

/-- The directory `a/..` is the empty one, though it is written with a `/`; and `..` goes through a
join up to the root, and no further. -/
theorem join_respelled_of_ups :
    let r := Resolver.ofFiles [⟨"b/c.ts"⟩] ["ts"]
    normalize "a/..".toList = normalize "".toList ∧
    normalize ".\\b\\c".toList = normalize "b//x/../c".toList ∧
    r.resolve ".\\b\\c" "a/.." = r.resolve "b//x/../c" "" ∧
    "..\\..".toList ≠ [] ∧ "x".toList.head? ≠ some '/' ∧ "x".toList.head? ≠ some '\\' ∧
    join (join "/p".toList "..\\..".toList) "x".toList =
      join "/p".toList ("..\\..".toList ++ '/' :: "x".toList) := by
  intro r
  have hdir : normalize "a/..".toList = normalize "".toList := by decide +kernel
  have hraw : normalize ".\\b\\c".toList = normalize "b//x/../c".toList := by decide +kernel
  obtain ⟨-, hresolve, hjoin⟩ := join_respelled
  refine ⟨hdir, hraw, hresolve r _ _ _ _ hdir hraw, by decide, by decide, by decide, ?_⟩
  exact hjoin _ _ _ (by decide) (by decide) (by decide)

end ModuleGraph.TextPath
