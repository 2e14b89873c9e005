import ModuleGraph.Proofs.Resolver.Stem

/-!
# Resolution without tables

`Search files extensions path answer` says what a path means among `files`, in terms of the files
alone: the file of that very path; failing this, of the files that have the path's stem the one
whose extension is preferred most; failing this, the path with the first extension that makes it a
file; and otherwise nothing.

The tables of a resolver answer as the search does, for any list of files, with any repetitions,
and any extensions (`resolve_eq_iff`). Since the search asks only which files there are, so does
the resolver (`Search.congr`).
-/

namespace ModuleGraph

open Std (HashMap HashSet)

namespace Resolver

/-- The file whose identifier reads `path`. -/
def fileAt (path : List Char) : FileId :=
  ⟨String.ofList path⟩

/-- The file whose identifier reads `path` and an extension. -/
def extended (path : List Char) (extension : String) : FileId :=
  fileAt (path ++ '.' :: extension.toList)

/-- What is compared when the extension does not count. -/
def stemOf (extensions : List String) (path : List Char) : List Char :=
  match splitExtension? extensions path with
  | some (stem, _) => stem
  | none => path

/-- Of the files that have the stem `stem`, `id` is the one whose extension is preferred most. -/
structure IsPreferred (files : List FileId) (extensions : List String) (stem : List Char)
    (id : FileId) : Prop where
  mem : id ∈ files
  least : ∃ rank, HasStem extensions id.text.toList stem rank ∧
    ∀ other ∈ files, ∀ rank', HasStem extensions other.text.toList stem rank' → rank ≤ rank'

/-- Some file has the stem `stem`. -/
def IsStem (files : List FileId) (extensions : List String) (stem : List Char) : Prop :=
  ∃ id ∈ files, ∃ rank, HasStem extensions id.text.toList stem rank

/-- What `path` means among `files`. -/
inductive Search (files : List FileId) (extensions : List String) (path : List Char) :
    Option FileId → Prop
  | itself : fileAt path ∈ files → Search files extensions path (some (fileAt path))
  | stem {id : FileId} : fileAt path ∉ files →
      IsPreferred files extensions (stemOf extensions path) id →
      Search files extensions path (some id)
  | extension {extension : String} : fileAt path ∉ files →
      ¬ IsStem files extensions (stemOf extensions path) →
      extensions.find? (extended path · ∈ files) = some extension →
      Search files extensions path (some (extended path extension))
  | nothing : fileAt path ∉ files →
      ¬ IsStem files extensions (stemOf extensions path) →
      (∀ extension ∈ extensions, extended path extension ∉ files) →
      Search files extensions path none

variable {files files' : List FileId} {extensions : List String}

/-! ## The search has one answer -/

theorem IsPreferred.isStem {stem : List Char} {id : FileId}
    (h : IsPreferred files extensions stem id) : IsStem files extensions stem := by
  obtain ⟨rank, hs, -⟩ := h.least
  exact ⟨id, h.mem, rank, hs⟩

theorem IsPreferred.unique {stem : List Char} {id id' : FileId}
    (h : IsPreferred files extensions stem id) (h' : IsPreferred files extensions stem id') :
    id = id' := by
  obtain ⟨rank, hs, hle⟩ := h.least
  obtain ⟨rank', hs', hle'⟩ := h'.least
  have hrank : rank = rank' :=
    Nat.le_antisymm (hle id' h'.mem rank' hs') (hle' id h.mem rank hs)
  subst hrank
  have htext : id.text = id'.text := String.toList_inj.1 (hs.eq hs')
  cases id
  cases id'
  exact congrArg FileId.mk htext

theorem Search.unique {path : List Char} {answer answer' : Option FileId}
    (h : Search files extensions path answer) (h' : Search files extensions path answer') :
    answer = answer' := by
  cases h with
  | itself hin =>
      cases h' with
      | itself => rfl
      | stem hout | extension hout | nothing hout => exact absurd hin hout
  | stem hout hpref =>
      cases h' with
      | itself hin => exact absurd hin hout
      | stem _ hpref' => exact congrArg some (hpref.unique hpref')
      | extension _ hno | nothing _ hno => exact absurd hpref.isStem hno
  | extension hout hno hfirst =>
      cases h' with
      | itself hin => exact absurd hin hout
      | stem _ hpref => exact absurd hpref.isStem hno
      | extension _ _ hfirst' =>
          rw [hfirst] at hfirst'
          cases hfirst'
          rfl
      | nothing _ _ hall =>
          have hin := List.find?_some hfirst
          exact absurd (of_decide_eq_true hin) (hall _ (List.mem_of_find?_eq_some hfirst))
  | nothing hout hno hall =>
      cases h' with
      | itself hin => exact absurd hin hout
      | stem _ hpref => exact absurd hpref.isStem hno
      | extension _ _ hfirst =>
          have hin := List.find?_some hfirst
          exact absurd (of_decide_eq_true hin) (hall _ (List.mem_of_find?_eq_some hfirst))
      | nothing => rfl

/-! ## The search asks only which files there are -/

theorem IsStem.congr (hmem : ∀ id, id ∈ files ↔ id ∈ files') {stem : List Char}
    (h : IsStem files extensions stem) : IsStem files' extensions stem := by
  obtain ⟨id, hid, rank, hs⟩ := h
  exact ⟨id, (hmem id).1 hid, rank, hs⟩

theorem IsPreferred.congr (hmem : ∀ id, id ∈ files ↔ id ∈ files') {stem : List Char} {id : FileId}
    (h : IsPreferred files extensions stem id) : IsPreferred files' extensions stem id := by
  obtain ⟨rank, hs, hle⟩ := h.least
  refine ⟨(hmem id).1 h.mem, rank, hs, ?_⟩
  intro other hother
  exact hle other ((hmem other).2 hother)

theorem Search.congr (hmem : ∀ id, id ∈ files ↔ id ∈ files') {path : List Char}
    {answer : Option FileId} (h : Search files extensions path answer) :
    Search files' extensions path answer := by
  have hmem' : ∀ id, id ∈ files' ↔ id ∈ files := fun id => (hmem id).symm
  cases h with
  | itself hin => exact .itself ((hmem _).1 hin)
  | stem hout hpref => exact .stem (mt (hmem' _).1 hout) (hpref.congr hmem)
  | extension hout hno hfirst =>
      refine .extension (mt (hmem' _).1 hout) (fun h => hno (h.congr hmem')) ?_
      rw [← hfirst]
      simp only [hmem]
  | nothing hout hno hall =>
      refine .nothing (mt (hmem' _).1 hout) (fun h => hno (h.congr hmem')) ?_
      intro extension he
      exact mt (hmem' _).1 (hall extension he)

/-! ## The tables answer as the search does -/

theorem find?_ofFiles (path : List Char) :
    (ofFiles files extensions).find? path =
      if fileAt path ∈ files then some (fileAt path) else none := by
  simp only [find?, ofFiles, HashSet.contains_ofList, List.contains_iff_mem]
  rfl

theorem isPreferred_iff {stem : List Char} {id : FileId} :
    IsPreferred files extensions stem id ↔
      ∃ rank, (ofFiles files extensions).stems[String.ofList stem]? = some (rank, id) := by
  have table := tabulates_ofFiles files extensions
  constructor
  · rintro ⟨hmem, rank, hs, hle⟩
    obtain ⟨best, id', hheld, hbest⟩ := table.least hmem hs
    obtain ⟨hmem', hs'⟩ := table.held hheld
    rw [String.toList_ofList] at hs'
    refine ⟨best, ?_⟩
    rw [hheld, IsPreferred.unique ⟨hmem, rank, hs, hle⟩ ⟨hmem', best, hs', ?_⟩]
    intro other hother rank' hrank'
    exact Nat.le_trans hbest (hle other hother rank' hrank')
  · rintro ⟨rank, hheld⟩
    obtain ⟨hmem, hs⟩ := table.held hheld
    rw [String.toList_ofList] at hs
    refine ⟨hmem, rank, hs, ?_⟩
    intro other hother rank' hrank'
    obtain ⟨best, id', hheld', hbest⟩ := table.least hother hrank'
    rw [hheld] at hheld'
    cases hheld'
    exact hbest

/-- A stem that some file has is the stem of one preferred file. -/
theorem IsStem.exists_isPreferred {stem : List Char} (h : IsStem files extensions stem) :
    ∃ id, ∀ other, IsPreferred files extensions stem other ↔ other = id := by
  obtain ⟨id, hid, rank, hs⟩ := h
  obtain ⟨best, id', hheld, -⟩ := (tabulates_ofFiles files extensions).least hid hs
  have hpref : IsPreferred files extensions stem id' := isPreferred_iff.2 ⟨best, hheld⟩
  refine ⟨id', ?_⟩
  intro other
  constructor
  · intro hother
    exact hother.unique hpref
  · rintro rfl
    exact hpref

theorem findStem?_eq_some_iff {path : List Char} {id : FileId} :
    (ofFiles files extensions).findStem? path = some id ↔
      IsPreferred files extensions (stemOf extensions path) id := by
  rw [isPreferred_iff]
  change Option.map _ (ofFiles files extensions).stems[String.ofList (stemOf extensions path)]? = _
    ↔ _
  simp only [Option.map_eq_some_iff, Prod.exists, exists_eq_right]

theorem search_resolve (raw dir : String) :
    Search files extensions (TextPath.join dir.toList raw.toList)
      ((ofFiles files extensions).resolve raw dir) := by
  simp only [resolve]
  generalize TextPath.join dir.toList raw.toList = path
  rw [find?_ofFiles]
  by_cases hin : fileAt path ∈ files
  · rw [if_pos hin, Option.some_or]
    exact .itself hin
  rw [if_neg hin, Option.none_or]
  cases hstem : (ofFiles files extensions).findStem? path with
  | some id =>
      rw [Option.some_or]
      exact .stem hin (findStem?_eq_some_iff.1 hstem)
  | none =>
      have hno : ¬ IsStem files extensions (stemOf extensions path) := by
        intro h
        obtain ⟨id, hpref⟩ := h.exists_isPreferred
        rw [findStem?_eq_some_iff.2 ((hpref id).2 rfl)] at hstem
        cases hstem
      have hfind : ∀ e id, (ofFiles files extensions).find? (path ++ '.' :: e.toList) = some id ↔
          extended path e ∈ files ∧ extended path e = id := by
        intro e id
        rw [find?_ofFiles, Option.ite_none_right_eq_some, Option.some.injEq]
        exact Iff.rfl
      have hnone : ∀ e, (ofFiles files extensions).find? (path ++ '.' :: e.toList) = none →
          extended path e ∉ files := by
        intro e he hmem
        rw [(hfind e _).2 ⟨hmem, rfl⟩] at he
        cases he
      rw [Option.none_or]
      cases hext : (ofFiles files extensions).findExtended? path with
      | some id =>
          obtain ⟨before, e, after, hsplit, he, hbefore⟩ := List.findSome?_eq_some_iff.1 hext
          obtain ⟨hmem, rfl⟩ := (hfind e id).1 he
          refine .extension hin hno (List.find?_eq_some_iff_append.2 ?_)
          refine ⟨decide_eq_true hmem, before, after, hsplit, ?_⟩
          intro other hother
          simpa using hnone other (hbefore other hother)
      | none =>
          refine .nothing hin hno ?_
          intro e he
          exact hnone e (List.findSome?_eq_none_iff.1 hext e he)

/-- The tables answer as the search does. -/
theorem resolve_eq_iff {raw dir : String} {answer : Option FileId} :
    (ofFiles files extensions).resolve raw dir = answer ↔
      Search files extensions (TextPath.join dir.toList raw.toList) answer := by
  constructor
  · rintro rfl
    exact search_resolve raw dir
  · exact (search_resolve raw dir).unique

/-- For any files and any extensions, a resolver gives the one answer of the search. A stem that
some file has is the stem of exactly one file that is preferred most, and neither the order of the
files nor their repetitions matter. -/
theorem resolve_iff_search (files : List FileId) (extensions : List String) (raw dir : String) :
    (∀ answer, (ofFiles files extensions).resolve raw dir = answer ↔
      Search files extensions (TextPath.join dir.toList raw.toList) answer) ∧
    (∀ stem, IsStem files extensions stem →
      ∃ id, ∀ other, IsPreferred files extensions stem other ↔ other = id) ∧
    ∀ files', (∀ id, id ∈ files ↔ id ∈ files') →
      (ofFiles files' extensions).resolve raw dir = (ofFiles files extensions).resolve raw dir := by
  refine ⟨fun answer => resolve_eq_iff, fun stem h => h.exists_isPreferred, ?_⟩
  intro files' hmem
  exact resolve_eq_iff.2 ((search_resolve raw dir).congr hmem)

/-- A file whose extension is preferred less is passed over, also if it comes first and twice, and
listing it once and last changes nothing. -/
theorem resolve_iff_search_repeated :
    let files : List FileId := [⟨"/p/a.js"⟩, ⟨"/p/a.ts"⟩, ⟨"/p/a.js"⟩]
    let once : List FileId := [⟨"/p/a.ts"⟩, ⟨"/p/a.js"⟩]
    (ofFiles files ["ts", "js"]).resolve "./a" "/p" = some ⟨"/p/a.ts"⟩ ∧
    (∃ id, ∀ other, IsPreferred files ["ts", "js"] "/p/a".toList other ↔ other = id) ∧
    (ofFiles once ["ts", "js"]).resolve "./a" "/p" =
      (ofFiles files ["ts", "js"]).resolve "./a" "/p" := by
  intro files once
  have hstem : HasStem ["ts", "js"] "/p/a.ts".toList "/p/a".toList 0 := by
    show splitExtension? _ _ = _
    decide +kernel
  obtain ⟨hsearch, hstems, hsame⟩ := resolve_iff_search files ["ts", "js"] "./a" "/p"
  refine ⟨?_, ?_, ?_⟩
  · refine (hsearch _).2 (.stem (by decide +kernel) ⟨by decide, 0, hstem, ?_⟩)
    intro other _ rank' _
    exact Nat.zero_le rank'
  · exact hstems _ ⟨⟨"/p/a.ts"⟩, by decide, 0, hstem⟩
  · refine hsame once ?_
    intro id
    simp only [files, once, List.mem_cons, List.not_mem_nil, or_false]
    constructor
    · rintro (h | h | h)
      · exact Or.inr h
      · exact Or.inl h
      · exact Or.inr h
    · exact Or.inr

end Resolver

end ModuleGraph
