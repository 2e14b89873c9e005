import Mathlib.Data.List.Basic
import ModuleGraph.Proofs.Resolver.Search
import ModuleGraph.Proofs.TextPath.Moving

/-!
# Resolution in a tree that is moved

When all files of a project are put under another directory, a specifier means the file that it
meant before, in its new place. It joins to the same path under that directory (`join_under`), and
each question of the search has the same answer there. Whether a file has a path is the same
question since different files have different paths after the move. Whether it has a stem is the
same since an extension without a `/` comes off behind the last `/` of a path, and so off the part
that was not added (`hasStem_append_iff`); the stem that is left has the same end, and its rank is
the same. This holds of any list of the moved files, as the search asks only which files there are.
-/

namespace ModuleGraph

open TextPath

variable {extensions : List String} {path stem rest root : List Char} {rank : Nat}

/-! ## Stems under another root -/

/-- An extension without a `/` comes off behind the last `/`. -/
theorem stem?_append_eq_some_iff {extension : List Char} (hext : '/' ∉ extension) :
    stem? extension (root ++ '/' :: rest) = some stem ↔
      ∃ inner, stem = root ++ inner ∧ stem? extension ('/' :: rest) = some inner := by
  simp only [stem?_eq_some_iff]
  constructor
  · rintro ⟨hpath, -, hlast⟩
    rcases List.append_eq_append_iff.1 hpath with ⟨inner, rfl, hrest⟩ | ⟨tail, -, htail⟩
    · have hne : inner ≠ [] := by
        rintro rfl
        exact absurd (List.cons.inj hrest).1 (by decide)
      rw [List.getLast?_append_of_ne_nil _ hne] at hlast
      exact ⟨inner, rfl, hrest, hne, hlast⟩
    · -- the extension would go on to the left of a slash
      have hslash : '/' ∈ '.' :: extension := by
        rw [htail]
        exact List.mem_append_right _ List.mem_cons_self
      rcases List.mem_cons.1 hslash with hdot | hslash
      · exact absurd hdot (by decide)
      · exact absurd hslash hext
  · rintro ⟨inner, rfl, hrest, hne, hlast⟩
    refine ⟨by rw [hrest, List.append_assoc], List.append_ne_nil_of_right_ne_nil _ hne, ?_⟩
    rwa [List.getLast?_append_of_ne_nil _ hne]

theorem stem?_append {extension : List Char} (hext : '/' ∉ extension) (root rest : List Char) :
    stem? extension (root ++ '/' :: rest) = (stem? extension ('/' :: rest)).map (root ++ ·) := by
  refine Option.ext fun stem => ?_
  rw [stem?_append_eq_some_iff hext, Option.map_eq_some_iff]
  simp only [and_comm, eq_comm]

theorem splitExtension?_append (hext : ∀ extension ∈ extensions, '/' ∉ extension.toList)
    (root : List Char) (habs : isAbsolute path = true) :
    splitExtension? extensions (root ++ path) =
      (splitExtension? extensions path).map (Prod.map (root ++ ·) id) := by
  obtain ⟨rest, rfl⟩ := List.head?_eq_some_iff.1 (eq_of_beq habs)
  rw [splitExtension?, splitExtension?, List.map_findSome?, ← List.head?_filterMap,
    ← List.head?_filterMap]
  refine congrArg List.head? (List.filterMap_congr ?_)
  rintro ⟨extension, place⟩ hp
  have hmem : extension ∈ extensions := (List.mem_zipIdx' hp).2 ▸ List.getElem_mem _
  simp only [Function.comp_apply, stem?_append (hext extension hmem), Option.map_map]
  rfl

theorem hasStem_append_iff (hext : ∀ extension ∈ extensions, '/' ∉ extension.toList)
    (habs : isAbsolute path = true) :
    HasStem extensions (root ++ path) (root ++ stem) rank ↔ HasStem extensions path stem rank := by
  rw [HasStem, HasStem, splitExtension?_append hext root habs, Option.map_eq_some_iff]
  constructor
  · rintro ⟨⟨stem', rank'⟩, hsplit, heq⟩
    obtain ⟨hstem, rfl⟩ := Prod.mk.inj heq
    rw [hsplit, List.append_cancel_left hstem]
    rfl
  · intro hsplit
    exact ⟨_, hsplit, rfl⟩

/-! ## Files under another root -/

/-- The identifier that the file has when its tree is put under `root`. -/
def FileId.under (root : String) (id : FileId) : FileId :=
  ⟨root ++ id.text⟩

theorem FileId.under_injective (root : String) : Function.Injective (FileId.under root) := by
  intro id other h
  have htext := congrArg (·.text.toList) h
  simp only [FileId.under, String.toList_append, List.append_cancel_left_eq] at htext
  exact congrArg FileId.mk (String.toList_inj.1 htext)

namespace Resolver

variable {files : List FileId} {root : String} {id : FileId}

theorem fileAt_append (root : String) (path : List Char) :
    fileAt (root.toList ++ path) = (fileAt path).under root := by
  rw [fileAt, String.ofList_append, String.ofList_toList]
  rfl

theorem extended_append (root : String) (path : List Char) (extension : String) :
    extended (root.toList ++ path) extension = (extended path extension).under root := by
  rw [extended, List.append_assoc, fileAt_append, extended]

theorem under_mem_map_iff : id.under root ∈ files.map (FileId.under root) ↔ id ∈ files :=
  List.mem_map_of_injective (FileId.under_injective root)

theorem stemOf_append (hext : ∀ extension ∈ extensions, '/' ∉ extension.toList)
    (root : List Char) (habs : isAbsolute path = true) :
    stemOf extensions (root ++ path) = root ++ stemOf extensions path := by
  rw [stemOf, splitExtension?_append hext root habs, stemOf]
  cases splitExtension? extensions path with
  | none => rfl
  | some p => rfl

theorem hasStem_under_iff (hext : ∀ extension ∈ extensions, '/' ∉ extension.toList)
    (hid : isAbsolute id.text.toList = true) :
    HasStem extensions (id.under root).text.toList (root.toList ++ stem) rank ↔
      HasStem extensions id.text.toList stem rank := by
  rw [FileId.under, String.toList_append]
  exact hasStem_append_iff hext hid

theorem IsPreferred.under (hext : ∀ extension ∈ extensions, '/' ∉ extension.toList)
    (hfiles : ∀ id ∈ files, isAbsolute id.text.toList = true)
    (h : IsPreferred files extensions stem id) :
    IsPreferred (files.map (FileId.under root)) extensions (root.toList ++ stem) (id.under root) := by
  obtain ⟨rank, hs, hle⟩ := h.least
  refine ⟨List.mem_map_of_mem h.mem, rank, (hasStem_under_iff hext (hfiles id h.mem)).2 hs, ?_⟩
  intro other hother rank' hs'
  obtain ⟨old, hold, rfl⟩ := List.mem_map.1 hother
  exact hle old hold rank' ((hasStem_under_iff hext (hfiles old hold)).1 hs')

theorem IsStem.of_under (hext : ∀ extension ∈ extensions, '/' ∉ extension.toList)
    (hfiles : ∀ id ∈ files, isAbsolute id.text.toList = true)
    (h : IsStem (files.map (FileId.under root)) extensions (root.toList ++ stem)) :
    IsStem files extensions stem := by
  obtain ⟨id, hid, rank, hs⟩ := h
  obtain ⟨old, hold, rfl⟩ := List.mem_map.1 hid
  exact ⟨old, hold, rank, (hasStem_under_iff hext (hfiles old hold)).1 hs⟩

/-- A path means the same among the files under a root, when it is put under it too. -/
theorem Search.under (hext : ∀ extension ∈ extensions, '/' ∉ extension.toList)
    (hfiles : ∀ id ∈ files, isAbsolute id.text.toList = true) (habs : isAbsolute path = true)
    {answer : Option FileId} (h : Search files extensions path answer) :
    Search (files.map (FileId.under root)) extensions (root.toList ++ path)
      (answer.map (FileId.under root)) := by
  have hitself : fileAt (root.toList ++ path) ∈ files.map (FileId.under root) ↔
      fileAt path ∈ files := by
    rw [fileAt_append, under_mem_map_iff]
  have hextended : ∀ extension,
      extended (root.toList ++ path) extension ∈ files.map (FileId.under root) ↔
        extended path extension ∈ files := by
    intro extension
    rw [extended_append, under_mem_map_iff]
  have hstem := stemOf_append hext root.toList habs
  cases h with
  | itself hin =>
      rw [Option.map_some, ← fileAt_append]
      exact .itself (hitself.2 hin)
  | stem hout hpref =>
      refine .stem (mt hitself.1 hout) ?_
      rw [hstem]
      exact hpref.under hext hfiles
  | extension hout hno hfirst =>
      rw [Option.map_some, ← extended_append]
      refine .extension (mt hitself.1 hout) (fun h => hno ?_) ?_
      · rw [hstem] at h
        exact h.of_under hext hfiles
      · rw [← hfirst]
        simp only [hextended]
  | nothing hout hno hall =>
      refine .nothing (mt hitself.1 hout) (fun h => hno ?_) ?_
      · rw [hstem] at h
        exact h.of_under hext hfiles
      · exact fun extension he => mt (hextended extension).1 (hall extension he)

/-- When a project is put under a directory, a specifier that stays inside the project is resolved
to the file that it was resolved to before, in its new place, or to none as before. It does not
matter in which order the moved files are listed, or how often; all of them are absolute paths in
normal form again. The extensions hold no `/`. -/
theorem resolveFrom_under {root : String} {files moved : List FileId} {extensions : List String}
    {importer : FileId} {raw : String} (hroot : IsInner root.toList)
    (hfiles : ∀ id ∈ files, IsInner id.text.toList)
    (hmoved : ∀ id, id ∈ moved ↔ ∃ old ∈ files, id = old.under root)
    (hext : ∀ extension ∈ extensions, '/' ∉ extension.toList)
    (himporter : IsInner importer.text.toList)
    (hraw : LeadsInside raw.toList (segments importer.parent.toList).reverse) :
    IsInner (importer.under root).text.toList ∧ (∀ id ∈ moved, IsInner id.text.toList) ∧
      (ofFiles moved extensions).resolveFrom raw (importer.under root) =
        ((ofFiles files extensions).resolveFrom raw importer).map (FileId.under root) := by
  have hinner : ∀ {id : FileId}, IsInner id.text.toList → IsInner (id.under root).text.toList := by
    intro id hid
    rw [FileId.under, String.toList_append]
    exact hroot.append hid
  have hsame : ∀ id, id ∈ files.map (FileId.under root) ↔ id ∈ moved := by
    intro id
    rw [List.mem_map, hmoved]
    simp only [eq_comm]
  refine ⟨hinner himporter, ?_, ?_⟩
  · intro id hid
    obtain ⟨old, hold, rfl⟩ := (hmoved id).1 hid
    exact hinner (hfiles old hold)
  · rw [FileId.parent, String.toList_ofList] at hraw
    obtain ⟨hjoined, hunder⟩ := join_under hroot himporter hraw
    have hsearch : Search files extensions (join (parent importer.text.toList) raw.toList)
        ((ofFiles files extensions).resolveFrom raw importer) := by
      have hresolve : Search files extensions (join importer.parent.toList raw.toList)
          ((ofFiles files extensions).resolve raw importer.parent) := search_resolve raw importer.parent
      rwa [FileId.parent, String.toList_ofList] at hresolve
    refine resolve_eq_iff.2 ?_
    rw [FileId.parent, String.toList_ofList, FileId.under, String.toList_append, hunder]
    exact (hsearch.under hext (fun id hid => (hfiles id hid).absolute) hjoined.absolute).congr hsame

/-- From a file at the root, by a `..` that leaves a directory and by the extension that is
preferred most. -/
theorem resolveFrom_under_of_top :
    let files : List FileId := [⟨"/lib/b.js"⟩, ⟨"/lib/b.ts"⟩, ⟨"/a.ts"⟩]
    let moved : List FileId := [⟨"/home/p/a.ts"⟩, ⟨"/home/p/lib/b.ts"⟩, ⟨"/home/p/lib/b.js"⟩]
    (∀ id, id ∈ moved ↔ ∃ old ∈ files, id = old.under "/home/p") ∧
      LeadsInside "src\\../lib/b".toList (segments (FileId.parent ⟨"/a.ts"⟩).toList).reverse ∧
      (ofFiles files ["ts", "js"]).resolveFrom "src\\../lib/b" ⟨"/a.ts"⟩ = some ⟨"/lib/b.ts"⟩ ∧
      (ofFiles moved ["ts", "js"]).resolveFrom "src\\../lib/b" ⟨"/home/p/a.ts"⟩ =
        some ⟨"/home/p/lib/b.ts"⟩ := by
  intro files moved
  have hpaths : ∀ path ∈ ["/home/p", "/lib/b.js", "/lib/b.ts", "/a.ts"],
      normalize path.toList = path.toList ∧ isAbsolute path.toList = true ∧ path.toList ≠ ['/'] := by
    decide +kernel
  have hinner : ∀ path ∈ ["/home/p", "/lib/b.js", "/lib/b.ts", "/a.ts"], IsInner path.toList := by
    intro path hpath
    obtain ⟨hnormal, habs, hne⟩ := hpaths path hpath
    exact ⟨hnormal, habs, hne⟩
  have hfiles : ∀ id ∈ files, IsInner id.text.toList := by
    intro id hid
    simp only [files, List.mem_cons, List.not_mem_nil, or_false] at hid
    rcases hid with rfl | rfl | rfl
    · exact hinner "/lib/b.js" (by decide)
    · exact hinner "/lib/b.ts" (by decide)
    · exact hinner "/a.ts" (by decide)
  have hmoved : ∀ id, id ∈ moved ↔ ∃ old ∈ files, id = old.under "/home/p" := by
    have hreverse : moved = (files.map (FileId.under "/home/p")).reverse := by decide
    intro id
    rw [hreverse, List.mem_reverse, List.mem_map]
    simp only [eq_comm]
  have hext : ∀ extension ∈ ["ts", "js"], '/' ∉ extension.toList := by decide
  have hraw : LeadsInside "src\\../lib/b".toList
      (segments (FileId.parent ⟨"/a.ts"⟩).toList).reverse :=
    ⟨by decide +kernel, by decide +kernel, by decide +kernel⟩
  have hstem : HasStem ["ts", "js"] "/lib/b.ts".toList "/lib/b".toList 0 := by
    show splitExtension? _ _ = _
    decide +kernel
  have hold : (ofFiles files ["ts", "js"]).resolveFrom "src\\../lib/b" ⟨"/a.ts"⟩ =
      some ⟨"/lib/b.ts"⟩ := by
    refine resolve_eq_iff.2 (.stem (by decide +kernel) ⟨by decide, 0, hstem, ?_⟩)
    intro _ _ rank _
    exact Nat.zero_le rank
  obtain ⟨-, -, hnew⟩ := resolveFrom_under (hinner "/home/p" (by decide)) hfiles hmoved hext
    (hinner "/a.ts" (by decide)) hraw
  rw [hold] at hnew
  exact ⟨hmoved, hraw, hold, hnew⟩

end Resolver

end ModuleGraph
