import ModuleGraph.Resolver

/-!
# The table of paths without an extension

A file has at most one stem, and an extension of a certain rank in the order of preference; the
two together give its path back (`HasStem.eq`). The table of a resolver holds for each stem the
file of that stem whose rank is least among the files that were entered.

`Tabulates` is the invariant of the fold that fills the table, over the files entered so far. One
step keeps it (`Tabulates.record`) whatever the rank of the new file, so it does not matter in
which order the files come or how often. That the minimum is reached in one file only is not part
of the invariant: it follows from `HasStem.eq`.
-/

namespace ModuleGraph

open Std (HashMap)

/-- `path` reads `stem` once the extension of rank `rank` is taken off, and no extension that is
preferred more can be taken off. -/
def HasStem (extensions : List String) (path stem : List Char) (rank : Nat) : Prop :=
  splitExtension? extensions path = some (stem, rank)

theorem TextPath.stem?_eq_some_iff {extension path stem : List Char} :
    TextPath.stem? extension path = some stem ↔
      path = stem ++ '.' :: extension ∧ stem ≠ [] ∧ stem.getLast? ≠ some '/' := by
  simp only [TextPath.stem?, Option.filter_eq_some_iff, TextPath.dropTail?_eq_some_iff,
    Bool.and_eq_true, Bool.not_eq_true', List.isEmpty_eq_false_iff, bne_iff_ne]

/-- A path has one stem at most. -/
theorem HasStem.unique {extensions : List String} {path stem stem' : List Char} {rank rank' : Nat}
    (h : HasStem extensions path stem rank) (h' : HasStem extensions path stem' rank') :
    stem = stem' ∧ rank = rank' := by
  have he : some (stem, rank) = some (stem', rank') := h.symm.trans h'
  cases he
  exact ⟨rfl, rfl⟩

/-- The extension that is taken off is the one of the rank. -/
theorem HasStem.exists_stem? {extensions : List String} {path stem : List Char} {rank : Nat}
    (h : HasStem extensions path stem rank) :
    ∃ extension, extensions[rank]? = some extension ∧
      TextPath.stem? extension.toList path = some stem := by
  obtain ⟨⟨extension, r⟩, hmem, hs⟩ := List.exists_of_findSome?_eq_some h
  obtain ⟨stem', hstem, he⟩ := Option.map_eq_some_iff.1 hs
  cases he
  exact ⟨extension, List.mk_mem_zipIdx_iff_getElem?.1 hmem, hstem⟩

/-- A stem and the extension of its rank make up the path. -/
theorem HasStem.eq_append {extensions : List String} {path stem : List Char} {rank : Nat}
    (h : HasStem extensions path stem rank) :
    ∃ extension, extensions[rank]? = some extension ∧ path = stem ++ '.' :: extension.toList := by
  obtain ⟨extension, he, hs⟩ := h.exists_stem?
  exact ⟨extension, he, (TextPath.stem?_eq_some_iff.1 hs).1⟩

/-- Two paths of one stem and one rank are the same. -/
theorem HasStem.eq {extensions : List String} {path path' stem : List Char} {rank : Nat}
    (h : HasStem extensions path stem rank) (h' : HasStem extensions path' stem rank) :
    path = path' := by
  obtain ⟨extension, he, hp⟩ := h.eq_append
  obtain ⟨extension', he', hp'⟩ := h'.eq_append
  rw [he] at he'
  cases he'
  exact hp.trans hp'.symm

/-- A path from which an extension can be taken off has a stem. -/
theorem exists_hasStem {extensions : List String} {path stem : List Char} {extension : String}
    (he : extension ∈ extensions) (hs : TextPath.stem? extension.toList path = some stem) :
    ∃ stem rank, HasStem extensions path stem rank := by
  obtain ⟨place, hplace⟩ := List.getElem?_of_mem he
  have hmem : (extension, place) ∈ extensions.zipIdx := List.mk_mem_zipIdx_iff_getElem?.2 hplace
  have hsome : (splitExtension? extensions path).isSome = true := by
    rw [splitExtension?, List.findSome?_isSome_iff]
    refine ⟨(extension, place), hmem, ?_⟩
    show ((TextPath.stem? extension.toList path).map (·, place)).isSome = true
    rw [hs]
    rfl
  obtain ⟨⟨first, rank⟩, hfirst⟩ := Option.isSome_iff_exists.1 hsome
  exact ⟨first, rank, hfirst⟩

/-- No extension that can be taken off stands before the one that is. -/
theorem HasStem.rank_le {extensions : List String} {path stem stem' : List Char} {rank place : Nat}
    {extension : String} (h : HasStem extensions path stem rank)
    (he : extensions[place]? = some extension)
    (hs : TextPath.stem? extension.toList path = some stem') : rank ≤ place := by
  obtain ⟨before, ⟨found, _⟩, after, hsplit, hfound, hbefore⟩ := List.findSome?_eq_some_iff.1 h
  obtain ⟨_, -, heq⟩ := Option.map_eq_some_iff.1 hfound
  cases heq
  -- the extensions before the one that is taken off are as many as its rank
  have hrank : before.length = rank := by
    have hat := congrArg (·[before.length]?) hsplit
    simp only [List.getElem?_zipIdx, Nat.zero_add, List.getElem?_append_right (Nat.le_refl _),
      Nat.sub_self, List.getElem?_cons_zero, Option.map_eq_some_iff, Prod.mk.injEq] at hat
    obtain ⟨_, -, -, hat⟩ := hat
    exact hat
  refine Nat.le_of_not_lt ?_
  intro hlt
  have hat : before[place]? = some (extension, place) := by
    rw [← List.getElem?_append_left (by omega), ← hsplit, List.getElem?_zipIdx, he,
      Option.map_some, Nat.zero_add]
  have hnone : (TextPath.stem? extension.toList path).map (·, place) = none :=
    hbefore (extension, place) (List.mem_of_getElem? hat)
  rw [hs] at hnone
  cases hnone

namespace Resolver

variable {extensions : List String}

/-- `stems` holds, for each stem of a file in `files`, the one whose extension has the least
rank. -/
structure Tabulates (extensions : List String) (files : List FileId)
    (stems : HashMap String (Nat × FileId)) : Prop where
  /-- What is held is one of the files, under its own stem and rank. -/
  held : ∀ {key : String} {rank : Nat} {id : FileId}, stems[key]? = some (rank, id) →
    id ∈ files ∧ HasStem extensions id.text.toList key.toList rank
  /-- No file is preferred more than the one held under its stem. -/
  least : ∀ {id : FileId} {stem : List Char} {rank : Nat}, id ∈ files →
    HasStem extensions id.text.toList stem rank →
    ∃ best id', stems[String.ofList stem]? = some (best, id') ∧ best ≤ rank

/-! ## One step -/

/-- What is held under a stem once a file of that stem is entered. -/
def prefer (held : Option (Nat × FileId)) (rank : Nat) (id : FileId) : Nat × FileId :=
  match held with
  | some (best, id') => if best ≤ rank then (best, id') else (rank, id)
  | none => (rank, id)

theorem prefer_rank_le (held : Option (Nat × FileId)) (rank : Nat) (id : FileId) :
    (prefer held rank id).1 ≤ rank ∧ ∀ best id', held = some (best, id') →
      (prefer held rank id).1 ≤ best := by
  cases held with
  | none =>
      refine ⟨Nat.le_refl rank, ?_⟩
      intro best id' h
      cases h
  | some entry =>
      obtain ⟨best, id'⟩ := entry
      by_cases h : best ≤ rank
      · simp only [prefer, if_pos h]
        refine ⟨h, ?_⟩
        rintro _ _ ⟨⟩
        exact Nat.le_refl best
      · simp only [prefer, if_neg h]
        refine ⟨Nat.le_refl rank, ?_⟩
        rintro _ _ ⟨⟩
        omega

theorem prefer_eq (held : Option (Nat × FileId)) (rank : Nat) (id : FileId) :
    held = some (prefer held rank id) ∨ prefer held rank id = (rank, id) := by
  cases held with
  | none => exact Or.inr rfl
  | some entry =>
      obtain ⟨best, id'⟩ := entry
      by_cases h : best ≤ rank
      · exact Or.inl (by simp only [prefer, if_pos h])
      · exact Or.inr (by simp only [prefer, if_neg h])

theorem record_of_no_stem {stems : HashMap String (Nat × FileId)} {id : FileId}
    (h : ∀ stem rank, ¬ HasStem extensions id.text.toList stem rank) :
    record extensions stems id = stems := by
  unfold record
  split
  · rfl
  · next stem rank hs => exact absurd hs (h stem rank)

theorem record_getElem? {stems : HashMap String (Nat × FileId)} {id : FileId} {stem : List Char}
    {rank : Nat} (h : HasStem extensions id.text.toList stem rank) (key : String) :
    (record extensions stems id)[key]? =
      if String.ofList stem = key then some (prefer stems[key]? rank id) else stems[key]? := by
  have hs : splitExtension? extensions id.text.toList = some (stem, rank) := h
  simp only [record, hs]
  by_cases hk : String.ofList stem = key
  · subst hk
    rw [if_pos rfl]
    cases hh : stems[String.ofList stem]? with
    | none => simp only [HashMap.getElem?_insert_self, prefer]
    | some entry =>
        obtain ⟨best, id'⟩ := entry
        by_cases hle : best ≤ rank
        · simp only [if_pos hle, prefer, hh]
        · simp only [if_neg hle, HashMap.getElem?_insert_self, prefer]
  · rw [if_neg hk]
    cases stems[String.ofList stem]? with
    | none => simp only [HashMap.getElem?_insert, beq_iff_eq, if_neg hk]
    | some entry =>
        obtain ⟨best, id'⟩ := entry
        by_cases hle : best ≤ rank
        · simp only [if_pos hle]
        · simp only [if_neg hle, HashMap.getElem?_insert, beq_iff_eq, if_neg hk]

theorem Tabulates.record {files : List FileId} {stems : HashMap String (Nat × FileId)}
    (h : Tabulates extensions files stems) (id : FileId) :
    Tabulates extensions (files ++ [id]) (record extensions stems id) := by
  by_cases hno : ∀ stem rank, ¬ HasStem extensions id.text.toList stem rank
  · rw [record_of_no_stem hno]
    refine ⟨?_, ?_⟩
    · intro key rank id' hheld
      exact ⟨List.mem_append_left _ (h.held hheld).1, (h.held hheld).2⟩
    · intro id' stem rank hmem hstem
      rcases List.mem_append.1 hmem with hm | hm
      · exact h.least hm hstem
      · rw [List.mem_singleton.1 hm] at hstem
        exact absurd hstem (hno stem rank)
  · simp only [Classical.not_forall, Classical.not_not] at hno
    obtain ⟨stem, rank, hstem⟩ := hno
    refine ⟨?_, ?_⟩
    · intro key rank' id' hheld
      rw [record_getElem? hstem] at hheld
      by_cases hk : String.ofList stem = key
      · rw [if_pos hk, Option.some.injEq] at hheld
        rcases prefer_eq stems[key]? rank id with hp | hp
        · rw [hheld] at hp
          exact ⟨List.mem_append_left _ (h.held hp).1, (h.held hp).2⟩
        · rw [hheld] at hp
          cases hp
          refine ⟨List.mem_append_right _ List.mem_cons_self, ?_⟩
          rwa [← hk, String.toList_ofList]
      · rw [if_neg hk] at hheld
        exact ⟨List.mem_append_left _ (h.held hheld).1, (h.held hheld).2⟩
    · intro id' stem' rank' hmem hstem'
      rw [record_getElem? hstem]
      rcases List.mem_append.1 hmem with hm | hm
      · obtain ⟨best, id'', hh, hle⟩ := h.least hm hstem'
        by_cases hk : String.ofList stem = String.ofList stem'
        · rw [if_pos hk]
          refine ⟨_, _, rfl, ?_⟩
          exact Nat.le_trans ((prefer_rank_le _ rank id).2 best id'' hh) hle
        · rw [if_neg hk]
          exact ⟨best, id'', hh, hle⟩
      · rw [List.mem_singleton.1 hm] at hstem'
        obtain ⟨rfl, rfl⟩ := hstem.unique hstem'
        rw [if_pos rfl]
        exact ⟨_, _, rfl, (prefer_rank_le _ rank id).1⟩

/-! ## The whole table -/

theorem tabulates_foldl (files : List FileId) {seen : List FileId}
    {stems : HashMap String (Nat × FileId)} (h : Tabulates extensions seen stems) :
    Tabulates extensions (seen ++ files) (files.foldl (record extensions) stems) := by
  induction files generalizing seen stems with
  | nil => rwa [List.append_nil]
  | cons id files ih =>
      have := ih (h.record id)
      rwa [List.append_assoc, List.singleton_append] at this

theorem tabulates_empty (extensions : List String) : Tabulates extensions [] ∅ := by
  refine ⟨?_, ?_⟩
  · intro key rank id h
    rw [HashMap.getElem?_empty] at h
    cases h
  · intro id stem rank h
    cases h

theorem tabulates_ofFiles (files : List FileId) (extensions : List String) :
    Tabulates extensions files (ofFiles files extensions).stems := by
  have := tabulates_foldl files (tabulates_empty extensions)
  rwa [List.nil_append] at this

end Resolver

end ModuleGraph
