import ModuleGraph.Proofs.Resolver.Search

/-!
# Paths without an extension

A path that is no file and from which no extension can be taken off is bare. What it means depends
on the files that read the path and an extension, and they are found in two ways: by their stem, if
the extension that is taken off such a file leaves the path again (`comesOff`), and by trying the
extensions in turn. Of the files that are found by their stem the most preferred one is the answer,
and the extensions are tried only if there is none (`search_of_bare`).

Both ways lead to the file with the most preferred extension, unless that file has another stem and
a less preferred one does not. Another stem it can have only if one extension ends in a dot and
another, as `d.ts` and `ts`: where no two do, the order of preference decides
(`resolve_bare_preference`).
-/

namespace ModuleGraph

variable {files : List FileId} {extensions : List String} {path : List Char}

namespace Resolver

/-! ## Files with an extension -/

theorem toList_text_extended (path : List Char) (extension : String) :
    (extended path extension).text.toList = path ++ '.' :: extension.toList :=
  String.toList_ofList

theorem extended_injective (path : List Char) : Function.Injective (extended path) := by
  intro extension other h
  have htext := congrArg (fun id => id.text.toList) h
  simp only [toList_text_extended] at htext
  exact String.toList_inj.1 (List.cons.inj (List.append_cancel_left htext)).2

/-- The extension that is taken off `path` with `extension` leaves `path`. -/
def comesOff (extensions : List String) (path : List Char) (extension : String) : Bool :=
  (splitExtension? extensions (extended path extension).text.toList).any (·.1 == path)

theorem comesOff_iff {extension : String} : comesOff extensions path extension = true ↔
    ∃ rank, HasStem extensions (extended path extension).text.toList path rank := by
  simp only [comesOff, HasStem, Option.any_eq_true, Prod.exists, beq_iff_eq]
  constructor
  · rintro ⟨_, rank, hs, rfl⟩
    exact ⟨rank, hs⟩
  · rintro ⟨rank, hs⟩
    exact ⟨path, rank, hs, rfl⟩

/-- A file of the stem `path` reads `path` and the extension of its rank, which comes off. -/
theorem eq_extended {id : FileId} {rank : Nat} (h : HasStem extensions id.text.toList path rank) :
    ∃ extension, extensions[rank]? = some extension ∧ id = extended path extension ∧
      TextPath.stem? extension.toList id.text.toList = some path := by
  obtain ⟨extension, he, hs⟩ := h.exists_stem?
  refine ⟨extension, he, ?_, hs⟩
  have htext : id.text = (extended path extension).text := String.toList_inj.1
    ((TextPath.stem?_eq_some_iff.1 hs).1.trans (toList_text_extended path extension).symm)
  cases id
  exact congrArg FileId.mk htext

/-- Some file has the stem `path` if the extension comes off some file that reads `path` and an
extension. -/
theorem isStem_iff : IsStem files extensions path ↔
    ∃ extension ∈ extensions, extended path extension ∈ files ∧
      comesOff extensions path extension = true := by
  constructor
  · rintro ⟨id, hid, rank, hs⟩
    obtain ⟨extension, he, rfl, -⟩ := eq_extended hs
    exact ⟨extension, List.mem_of_getElem? he, hid, comesOff_iff.2 ⟨rank, hs⟩⟩
  · rintro ⟨extension, -, hid, hoff⟩
    obtain ⟨rank, hs⟩ := comesOff_iff.1 hoff
    exact ⟨_, hid, rank, hs⟩

/-- Of the files of the stem `path` the preferred one has the first extension that comes off. -/
theorem isPreferred_of_find? {extension : String}
    (h : extensions.find? (fun e => extended path e ∈ files ∧ comesOff extensions path e) =
      some extension) : IsPreferred files extensions path (extended path extension) := by
  obtain ⟨hfound, place, hlt, hplace, hbefore⟩ := List.find?_eq_some_iff_getElem.1 h
  obtain ⟨hid, hoff⟩ := of_decide_eq_true hfound
  obtain ⟨rank, hs⟩ := comesOff_iff.1 hoff
  refine ⟨hid, rank, hs, ?_⟩
  have hrank : rank ≤ place := by
    obtain ⟨found, -, hsame, hstem⟩ := eq_extended hs
    cases extended_injective path hsame
    have hhere : extensions[place]? = some extension := List.getElem?_eq_some_iff.2 ⟨hlt, hplace⟩
    exact hs.rank_le hhere hstem
  intro other hother rank' hs'
  obtain ⟨extension', he', rfl, -⟩ := eq_extended hs'
  refine Nat.le_of_not_lt ?_
  intro hearlier
  obtain ⟨hlt', hat'⟩ := List.getElem?_eq_some_iff.1 he'
  have hskipped := hbefore rank' (by omega)
  rw [hat'] at hskipped
  simp only [Bool.not_eq_true', decide_eq_false_iff_not, not_and] at hskipped
  exact hskipped hother (comesOff_iff.2 ⟨rank', hs'⟩)

/-- No file has the stem `path` if no extension comes off. -/
theorem find?_eq_none_iff :
    extensions.find? (fun e => extended path e ∈ files ∧ comesOff extensions path e) = none ↔
      ¬ IsStem files extensions path := by
  rw [isStem_iff, List.find?_eq_none]
  simp only [decide_eq_true_eq, not_exists, not_and]

/-! ## What a bare path means -/

/-- The file that reads `path` and the most preferred extension with which there is a file. -/
def firstExtended (files : List FileId) (extensions : List String) (path : List Char) :
    Option FileId :=
  (extensions.find? (extended path · ∈ files)).map (extended path)

/-- The file that reads `path` and the most preferred extension with which there is a file of the
stem `path`. -/
def firstFiled (files : List FileId) (extensions : List String) (path : List Char) :
    Option FileId :=
  (extensions.find? fun e => extended path e ∈ files ∧ comesOff extensions path e).map
    (extended path)

/-- The most preferred file of the stem `path` is meant, and only if there is none the extensions
are tried. -/
theorem search_of_bare (hout : fileAt path ∉ files)
    (hbare : splitExtension? extensions path = none) :
    Search files extensions path
      ((firstFiled files extensions path).or (firstExtended files extensions path)) := by
  have hstem : stemOf extensions path = path := by
    rw [stemOf, hbare]
  unfold firstFiled
  cases hfiled : extensions.find? fun e => extended path e ∈ files ∧ comesOff extensions path e with
  | some extension =>
      refine .stem hout ?_
      rw [hstem]
      exact isPreferred_of_find? hfiled
  | none =>
      have hno : ¬ IsStem files extensions (stemOf extensions path) := by
        rw [hstem]
        exact find?_eq_none_iff.1 hfiled
      rw [Option.map_none, Option.none_or, firstExtended]
      cases hfirst : extensions.find? (extended path · ∈ files) with
      | some extension => exact .extension hout hno hfirst
      | none =>
          refine .nothing hout hno ?_
          intro extension he hfile
          exact List.find?_eq_none.1 hfirst extension he (decide_eq_true hfile)

/-- The order of preference decides unless the first file in it has another stem and some file has
the stem `path`. -/
theorem or_firstExtended_eq_iff :
    (firstFiled files extensions path).or (firstExtended files extensions path) =
        firstExtended files extensions path ↔
      ∀ extension, extensions.find? (extended path · ∈ files) = some extension →
        comesOff extensions path extension = true ∨ ¬ IsStem files extensions path := by
  unfold firstFiled firstExtended
  constructor
  · intro h extension hfirst
    rw [← find?_eq_none_iff]
    cases hfiled :
        extensions.find? fun e => extended path e ∈ files ∧ comesOff extensions path e with
    | none => exact Or.inr rfl
    | some filed =>
        rw [hfiled, hfirst, Option.map_some, Option.map_some, Option.some_or] at h
        cases extended_injective path (Option.some.inj h)
        have hoff := List.find?_some hfiled
        exact Or.inl (of_decide_eq_true hoff).2
  · intro h
    cases hfirst : extensions.find? (extended path · ∈ files) with
    | none =>
        have hno : ¬ IsStem files extensions path := by
          rw [isStem_iff]
          rintro ⟨extension, he, hfile, -⟩
          exact List.find?_eq_none.1 hfirst extension he (decide_eq_true hfile)
        rw [find?_eq_none_iff.2 hno]
        rfl
    | some extension =>
        rcases h extension hfirst with hoff | hno
        · obtain ⟨hin, before, after, hsplit, hbefore⟩ := List.find?_eq_some_iff_append.1 hfirst
          have hfiled : extensions.find?
              (fun e => extended path e ∈ files ∧ comesOff extensions path e) = some extension := by
            refine List.find?_eq_some_iff_append.2 ⟨?_, before, after, hsplit, ?_⟩
            · exact decide_eq_true ⟨of_decide_eq_true hin, hoff⟩
            · intro other hother
              have hnot : extended path other ∉ files := by simpa using hbefore other hother
              simpa using Or.inl hnot
          rw [hfiled]
          rfl
        · rw [find?_eq_none_iff.2 hno]
          rfl

/-! ## Extensions that are told apart -/

/-- No extension ends in a dot and another. -/
def Apart (extensions : List String) : Prop :=
  ∀ extension ∈ extensions, ∀ other ∈ extensions, ¬ ('.' :: other.toList) <:+ extension.toList

instance (extensions : List String) : Decidable (Apart extensions) :=
  inferInstanceAs (Decidable (∀ extension ∈ extensions, ∀ other ∈ extensions,
    ¬ ('.' :: other.toList) <:+ extension.toList))

/-- An extension behind the name of a file is the one that comes off. -/
theorem comesOff_of_apart (hapart : Apart extensions) {extension : String}
    (he : extension ∈ extensions) (hne : path ≠ []) (hname : path.getLast? ≠ some '/') :
    comesOff extensions path extension = true := by
  obtain ⟨stem, rank, hstem⟩ := exists_hasStem he
    (TextPath.stem?_eq_some_iff.2 ⟨toList_text_extended path extension, hne, hname⟩)
  obtain ⟨found, hfound, htext⟩ := hstem.eq_append
  have hsame : stem = path := by
    rw [toList_text_extended] at htext
    -- the longer of the two extensions would end in a dot and the other
    rcases List.append_eq_append_iff.1 htext with ⟨between, hpath, hend⟩ | ⟨between, hpath, hend⟩
    · cases between with
      | nil => rw [hpath, List.append_nil]
      | cons c between =>
          refine absurd ⟨between, ?_⟩ (hapart extension he found (List.mem_of_getElem? hfound))
          exact (List.cons.inj hend).2.symm
    · cases between with
      | nil => rw [hpath, List.append_nil]
      | cons c between =>
          refine absurd ⟨between, ?_⟩ (hapart found (List.mem_of_getElem? hfound) extension he)
          exact (List.cons.inj hend).2.symm
  rw [hsame] at hstem
  exact comesOff_iff.2 ⟨rank, hstem⟩

/-- An extension comes off only if it leaves the name of a file. -/
theorem names_of_isStem (h : IsStem files extensions path) :
    path ≠ [] ∧ path.getLast? ≠ some '/' := by
  obtain ⟨id, -, rank, hs⟩ := h
  obtain ⟨extension, -, hstem⟩ := hs.exists_stem?
  exact (TextPath.stem?_eq_some_iff.1 hstem).2

/-- What a path means that is no file and from which no extension can be taken off: the most
preferred file of its stem, or else the file with the first extension that makes it one. The order
of preference alone decides if and only if the first file in it has the stem as well, or none has.
So it does if no extension ends in a dot and another. -/
theorem resolve_bare_preference (files : List FileId) (extensions : List String)
    (raw dir : String) {path : List Char} (hpath : TextPath.join dir.toList raw.toList = path)
    (hout : fileAt path ∉ files) (hbare : splitExtension? extensions path = none) :
    let found := (ofFiles files extensions).resolve raw dir
    found = (firstFiled files extensions path).or (firstExtended files extensions path) ∧
      (found = firstExtended files extensions path ↔
        ∀ extension, extensions.find? (extended path · ∈ files) = some extension →
          comesOff extensions path extension = true ∨ ¬ IsStem files extensions path) ∧
      (Apart extensions → found = firstExtended files extensions path) := by
  intro found
  have hfound : found =
      (firstFiled files extensions path).or (firstExtended files extensions path) := by
    refine resolve_eq_iff.2 ?_
    rw [hpath]
    exact search_of_bare hout hbare
  rw [hfound]
  refine ⟨rfl, or_firstExtended_eq_iff, ?_⟩
  intro hapart
  refine or_firstExtended_eq_iff.2 ?_
  intro extension hfirst
  by_cases hstem : IsStem files extensions path
  · obtain ⟨hne, hname⟩ := names_of_isStem hstem
    exact Or.inl (comesOff_of_apart hapart (List.mem_of_find?_eq_some hfirst) hne hname)
  · exact Or.inr hstem

/-- With `d.ts` and `js` told apart, `./a` leads to `a.d.ts`. -/
theorem resolve_bare_preference_of_apart :
    let files : List FileId := [⟨"/p/a.js"⟩, ⟨"/p/a.d.ts"⟩]
    let extensions := ["d.ts", "js"]
    let path := TextPath.join "/p".toList "./a".toList
    let found := (ofFiles files extensions).resolve "./a" "/p"
    fileAt path ∉ files ∧ splitExtension? extensions path = none ∧ Apart extensions ∧
      found = firstExtended files extensions path ∧ found = some ⟨"/p/a.d.ts"⟩ := by
  intro files extensions path found
  have hout : fileAt path ∉ files := by decide +kernel
  have hbare : splitExtension? extensions path = none := by decide +kernel
  have hapart : Apart extensions := by decide +kernel
  have hfirst : firstExtended files extensions path = some ⟨"/p/a.d.ts"⟩ := by decide +kernel
  obtain ⟨-, -, hpreferred⟩ := resolve_bare_preference files extensions "./a" "/p" rfl hout hbare
  have hfound : found = firstExtended files extensions path := hpreferred hapart
  exact ⟨hout, hbare, hapart, hfound, hfound.trans hfirst⟩

/-- With `ts` before `d.ts`, the file `a.d.ts` has the stem `a.d`, so `./a` leads to `a.js`, whose
extension is preferred less than both. -/
theorem resolve_bare_passes_over :
    let files : List FileId := [⟨"/p/a.d.ts"⟩, ⟨"/p/a.js"⟩]
    let extensions := ["ts", "d.ts", "js"]
    let path := TextPath.join "/p".toList "./a".toList
    fileAt path ∉ files ∧ splitExtension? extensions path = none ∧
      firstExtended files extensions path = some ⟨"/p/a.d.ts"⟩ ∧
      (ofFiles files extensions).resolve "./a" "/p" = some ⟨"/p/a.js"⟩ := by
  intro files extensions path
  have hout : fileAt path ∉ files := by decide +kernel
  have hbare : splitExtension? extensions path = none := by decide +kernel
  have hfiled : firstFiled files extensions path = some ⟨"/p/a.js"⟩ := by decide +kernel
  refine ⟨hout, hbare, by decide +kernel, resolve_eq_iff.2 ?_⟩
  have hsearch := search_of_bare hout hbare
  rwa [hfiled, Option.some_or] at hsearch

end Resolver

end ModuleGraph
