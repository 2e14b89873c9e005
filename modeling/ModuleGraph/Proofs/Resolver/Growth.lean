import ModuleGraph.Proofs.Resolver.Search

/-!
# More files to resolve to

The search asks in turn for the file itself, for the files of its stem and for the files with an
extension. More files can answer one of these questions before it was answered so far, or answer it
with another file, but then the answer is one of the new files. If it is not, it was the answer
before: no earlier question was answered then, as there were fewer files, and no other file was
preferred to this one (`Search.of_subset`).

One file more, anywhere in the list, therefore leaves each specifier as it was or redirects it to
that file (`resolve_insert`).
-/

namespace ModuleGraph

namespace Resolver

variable {files more : List FileId} {extensions : List String}

theorem IsStem.of_subset (hsub : files ⊆ more) {stem : List Char}
    (h : IsStem files extensions stem) : IsStem more extensions stem := by
  obtain ⟨id, hid, hs⟩ := h
  exact ⟨id, hsub hid, hs⟩

/-- The file preferred among more files is the preferred one among any of them that it is one of. -/
theorem IsPreferred.of_subset (hsub : files ⊆ more) {stem : List Char} {id : FileId}
    (h : IsPreferred more extensions stem id) (hid : id ∈ files) :
    IsPreferred files extensions stem id := by
  obtain ⟨rank, hs, hle⟩ := h.least
  refine ⟨hid, rank, hs, ?_⟩
  intro other hother
  exact hle other (hsub hother)

/-- What a path means among more files is one of the new files, or what it meant before. -/
theorem Search.of_subset (hsub : files ⊆ more) {path : List Char} {answer : Option FileId}
    (h : Search more extensions path answer) :
    (∃ id ∈ more, id ∉ files ∧ answer = some id) ∨ Search files extensions path answer := by
  cases h with
  | itself hin =>
      by_cases hold : fileAt path ∈ files
      · exact Or.inr (.itself hold)
      · exact Or.inl ⟨_, hin, hold, rfl⟩
  | @stem id hout hpref =>
      by_cases hold : id ∈ files
      · exact Or.inr (.stem (fun hin => hout (hsub hin)) (hpref.of_subset hsub hold))
      · exact Or.inl ⟨id, hpref.mem, hold, rfl⟩
  | @extension extension hout hno hfirst =>
      obtain ⟨hin, before, after, hsplit, hbefore⟩ := List.find?_eq_some_iff_append.1 hfirst
      by_cases hold : extended path extension ∈ files
      · refine Or.inr (.extension (fun hin => hout (hsub hin)) (fun h => hno (h.of_subset hsub)) ?_)
        refine List.find?_eq_some_iff_append.2 ⟨decide_eq_true hold, before, after, hsplit, ?_⟩
        intro other hother
        have hnew : extended path other ∉ more := by simpa using hbefore other hother
        simpa using fun hin => hnew (hsub hin)
      · exact Or.inl ⟨_, of_decide_eq_true hin, hold, rfl⟩
  | nothing hout hno hall =>
      refine Or.inr (.nothing (fun hin => hout (hsub hin)) (fun h => hno (h.of_subset hsub)) ?_)
      intro extension he hin
      exact hall extension he (hsub hin)

/-- A specifier that is resolved among more files leads to one of the new files, or where it led
before. -/
theorem resolve_of_subset (hsub : files ⊆ more) (extensions : List String) (raw dir : String) :
    (∃ id ∈ more, id ∉ files ∧ (ofFiles more extensions).resolve raw dir = some id) ∨
      (ofFiles more extensions).resolve raw dir = (ofFiles files extensions).resolve raw dir := by
  have hsearch : Search more extensions (TextPath.join dir.toList raw.toList)
      ((ofFiles more extensions).resolve raw dir) := search_resolve raw dir
  rcases hsearch.of_subset hsub with hnew | hold
  · exact Or.inl hnew
  · exact Or.inr (resolve_eq_iff.2 hold).symm

/-- One file more, anywhere among the others: a specifier leads where it led before, or to that
file. In particular it still leads somewhere if it did before, and whatever other file it leads to
it led to before. -/
theorem resolve_insert (before after : List FileId) (id : FileId) (extensions : List String)
    (raw dir : String) :
    let old := (ofFiles (before ++ after) extensions).resolve raw dir
    let new := (ofFiles (before ++ id :: after) extensions).resolve raw dir
    (new = old ∨ new = some id) ∧ (old ≠ none → new ≠ none) ∧
      ∀ other, other ≠ id → new = some other → old = some other := by
  intro old new
  have hsub : before ++ after ⊆ before ++ id :: after :=
    List.append_subset.2 ⟨List.subset_append_left _ _, fun _ hmem =>
      List.mem_append_right _ (List.mem_cons_of_mem _ hmem)⟩
  have hcases : new = old ∨ new = some id := by
    rcases resolve_of_subset hsub extensions raw dir with ⟨found, hmem, hout, hnew⟩ | hold
    · rw [List.mem_append, not_or] at hout
      rcases List.mem_append.1 hmem with hmem | hmem
      · exact absurd hmem hout.1
      · rcases List.mem_cons.1 hmem with rfl | hmem
        · exact Or.inr hnew
        · exact absurd hmem hout.2
    · exact Or.inl hold
  refine ⟨hcases, ?_, ?_⟩
  · intro hold
    rcases hcases with hnew | hnew
    · rwa [hnew]
    · rw [hnew]
      exact Option.some_ne_none id
  · intro other hne hother
    rcases hcases with hnew | hnew
    · rwa [← hnew]
    · rw [hnew] at hother
      exact absurd (Option.some.inj hother).symm hne

/-- A file preferred to `a.js` takes over `./a`, but not `./a.js`. -/
theorem resolve_insert_preferred :
    let js : FileId := ⟨"/p/a.js"⟩
    let ts : FileId := ⟨"/p/a.ts"⟩
    let old := (ofFiles [js] ["ts", "js"]).resolve
    let new := (ofFiles [ts, js] ["ts", "js"]).resolve
    (old "./a" "/p" = some js ∧ new "./a" "/p" = some ts) ∧
      (new "./a" "/p" = old "./a" "/p" ∨ new "./a" "/p" = some ts) ∧ new "./a" "/p" ≠ none ∧
      js ≠ ts ∧ new "./a.js" "/p" = some js ∧ old "./a.js" "/p" = some js := by
  intro js ts old new
  have hstem : HasStem ["ts", "js"] "/p/a.js".toList "/p/a".toList 1 := by
    show splitExtension? _ _ = _
    decide +kernel
  have hstem' : HasStem ["ts", "js"] "/p/a.ts".toList "/p/a".toList 0 := by
    show splitExtension? _ _ = _
    decide +kernel
  have hold : old "./a" "/p" = some js := by
    refine resolve_eq_iff.2 (.stem (by decide +kernel) ⟨List.mem_cons_self, 1, hstem, ?_⟩)
    intro other hother rank hrank
    rw [List.mem_singleton.1 hother] at hrank
    exact Nat.le_of_eq (hstem.unique hrank).2
  have hanswered : old "./a" "/p" ≠ none := by
    rw [hold]
    exact Option.some_ne_none js
  have hnew : new "./a" "/p" = some ts := by
    refine resolve_eq_iff.2 (.stem (by decide +kernel) ⟨List.mem_cons_self, 0, hstem', ?_⟩)
    intro other _ rank _
    exact Nat.zero_le rank
  have hdiff : js ≠ ts := by decide
  have hitself : new "./a.js" "/p" = some js := resolve_eq_iff.2 (.itself (by decide +kernel))
  obtain ⟨hcases, hsome, -⟩ := resolve_insert [] [js] ts ["ts", "js"] "./a" "/p"
  obtain ⟨-, -, hkept⟩ := resolve_insert [] [js] ts ["ts", "js"] "./a.js" "/p"
  exact ⟨⟨hold, hnew⟩, hcases, hsome hanswered, hdiff, hitself,
    hkept js hdiff hitself⟩

end Resolver

end ModuleGraph
