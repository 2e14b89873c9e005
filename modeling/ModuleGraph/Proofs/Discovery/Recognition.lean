import ModuleGraph.Proofs.Discovery.Files
import ModuleGraph.Proofs.Path.Distinct
import ModuleGraph.Proofs.Resolver.Stem

/-!
# Recognized extensions, in discovery and in resolution

Discovery asks for the extension of a path, which is what follows the last dot of its last name.
Resolution takes extensions off the end of an identifier, whatever dots they hold. Both come to the
same question about the last name as it is shown: whether it ends in a dot and a recognized
extension, with something before the dot (`HasEnding`). Discovery asks it of the extensions without
a dot only (`recognizes_iff`), and resolution of all of them (`isSome_split_ofPath_iff`). So what is
listed has a stem, and what has a stem by an extension without a dot is listed.

The last name has to be free of `\`. Such a name is one name of the path, but more than one segment
of the identifier, and then the two are not asked about the same name.
-/

namespace ModuleGraph

open Text

/-! ## Extensions of names -/

namespace Path

variable {name extension : List UInt8}

theorem extensionOf?_append (stem : List UInt8) (h : dot ∉ extension) :
    extensionOf? (stem ++ dot :: extension) = if stem = [] then none else some extension := by
  rw [extensionOf?, List.splitOn_append_cons_self, List.splitOn_eq_singleton h, List.reverse_append,
    List.reverse_singleton, List.singleton_append]
  split_ifs with hstem
  · rw [hstem, List.splitOn_nil]
    rfl
  · have hpieces : stem.splitOn dot ≠ [] := List.splitOn_ne_nil _ _
    have hnil : (stem.splitOn dot).reverse ≠ [[]] := by
      intro heq
      have hstem' := congrArg (List.intercalate [dot] ·.reverse) heq
      simp only [List.reverse_reverse, List.intercalate_splitOn] at hstem'
      exact hstem hstem'
    split
    · next heq => exact absurd (List.reverse_eq_nil_iff.1 (List.cons.inj heq).2) hpieces
    · next heq => exact absurd (List.cons.inj heq).2 hnil
    · next heq => exact congrArg some (List.cons.inj heq).1.symm
    · next heq => cases heq

/-- The extension of a name is what follows its last dot, if something stands before the dot. -/
theorem extensionOf?_eq_some_iff : extensionOf? name = some extension ↔
    dot ∉ extension ∧ ∃ stem, stem ≠ [] ∧ name = stem ++ dot :: extension := by
  constructor
  · intro h
    by_cases hdot : dot ∈ name
    · obtain ⟨stem, last, rfl, hlast⟩ := exists_last_cut hdot
      rw [extensionOf?_append stem hlast] at h
      split_ifs at h with hstem
      cases h
      exact ⟨hlast, stem, hstem, rfl⟩
    · rw [extensionOf?, List.splitOn_eq_singleton hdot] at h
      cases h
  · rintro ⟨hdot, stem, hstem, rfl⟩
    rw [extensionOf?_append stem hdot, if_neg hstem]

end Path

/-! ## Names that end in an extension -/

/-- The name is shown with a dot and the extension at its end, and something before the dot. -/
def HasEnding (name : FileName) (extension : String) : Prop :=
  ∃ stem, stem ≠ [] ∧ Path.shownName name = stem ++ '.' :: extension.toList

theorem Path.shownName_append (stem : List UInt8) (extension : String) :
    shownName (stem ++ dot :: Utf8.encode extension) =
      shownName stem ++ '.' :: extension.toList := by
  rw [shownName, Utf8.decodeLossy_append (by decide), Utf8.decodeLossy_encode]
  rfl

/-- The extension of a name that is text, as text. -/
theorem extensionOf?_eq_encode_iff {name : FileName} (htext : (Utf8.decode? name).isSome = true)
    {extension : String} : Path.extensionOf? name = some (Utf8.encode extension) ↔
      '.' ∉ extension.toList ∧ HasEnding name extension := by
  have hdot : Path.dot ∈ Utf8.encode extension ↔ '.' ∈ extension.toList :=
    Utf8.mem_encode_iff (by decide)
  rw [Path.extensionOf?_eq_some_iff, hdot]
  refine and_congr_right fun _ => ?_
  constructor
  · rintro ⟨stem, hstem, rfl⟩
    refine ⟨Path.shownName stem, ?_, Path.shownName_append stem extension⟩
    exact Path.shownName_ne (s := "") (by decide) hstem
  · rintro ⟨stem, hstem, hshown⟩
    obtain ⟨s, hs⟩ := Option.isSome_iff_exists.1 htext
    have hname : name = Utf8.encode (String.ofList (stem ++ '.' :: extension.toList)) := by
      rw [← hshown, Path.shownName, String.ofList_toList, Utf8.decodeLossy_of_decode? hs,
        Utf8.encode_of_decode? hs]
    refine ⟨Utf8.encode (String.ofList stem), ?_, ?_⟩
    · intro hnil
      have hempty := congrArg String.toList (Utf8.decodeLossy_encode (String.ofList stem))
      rw [hnil, Utf8.decodeLossy_nil, String.toList_ofList] at hempty
      exact hstem hempty.symm
    · rw [hname]
      simp only [Utf8.encode, String.toList_ofList, List.flatMap_append, List.flatMap_cons]
      rfl

/-! ## What resolution recognizes -/

/-- An extension without a `/` comes off a path exactly if it comes off what stands behind the last
`/`, and leaves something of it. -/
theorem exists_stem?_iff {front last extension : List Char} (hlast : '/' ∉ last)
    (hextension : '/' ∉ extension) :
    (∃ stem, TextPath.stem? extension (front ++ '/' :: last) = some stem) ↔
      ∃ stem, stem ≠ [] ∧ last = stem ++ '.' :: extension := by
  simp only [TextPath.stem?_eq_some_iff]
  constructor
  · rintro ⟨stem, hpath, -, hend⟩
    rcases List.append_eq_append_iff.1 hpath with ⟨inside, rfl, hinside⟩ | ⟨outside, -, houtside⟩
    · cases inside with
      | nil => cases hinside
      | cons c inside =>
          obtain ⟨rfl, hname⟩ := List.cons.inj hinside
          refine ⟨inside, ?_, hname⟩
          rintro rfl
          exact hend List.getLast?_concat
    · have hslash : '/' ∈ '.' :: extension := houtside ▸ List.mem_append_right _ List.mem_cons_self
      exact absurd ((List.mem_cons.1 hslash).resolve_left (by decide)) hextension
  · rintro ⟨stem, hstem, rfl⟩
    refine ⟨front ++ '/' :: stem, ?_, ?_, ?_⟩
    · rw [List.append_assoc, List.cons_append]
    · exact List.append_ne_nil_of_right_ne_nil _ (List.cons_ne_nil _ _)
    · rw [List.getLast?_append_of_ne_nil _ (List.cons_ne_nil _ _),
        List.getLast?_cons_of_ne_nil hstem]
      intro hend
      exact hlast (List.mem_append_left _ (List.mem_of_getLast? hend))

/-- The identifier of a file ends in the name of the file, as it is shown, if no `\` is in the
name. -/
theorem FileId.exists_ofPath_eq {p : Path} {outer : Location} {name : FileName}
    (hp : p.components = .root :: (outer ++ [name]).map .name) (hname : name.IsProper)
    (hback : Path.backslash ∉ name) :
    ∃ front, (FileId.ofPath p).text.toList = front ++ '/' :: Path.shownName name := by
  have hleads : Path.leads p.components = true := by
    rw [hp]
    rfl
  have hlast : Path.Component.shown (.name name) = [Path.shownName name] :=
    Path.shown_of_isProper hname hback
  have hshown : p.components.flatMap Path.Component.shown =
      (outer.map Path.Component.name).flatMap Path.Component.shown ++ [Path.shownName name] := by
    rw [hp, List.map_append, List.flatMap_cons, List.flatMap_append, List.map_singleton,
      List.flatMap_singleton, hlast]
    rfl
  obtain ⟨kept, hkept⟩ : ∃ kept, ((outer.map Path.Component.name).flatMap
      Path.Component.shown).foldl (TextPath.enter true) [] = kept := ⟨_, rfl⟩
  rw [ofPath_eq_ofComponents, ofComponents, hleads, hshown, List.foldl_append, hkept,
    List.foldl_cons, List.foldl_nil, Path.enter_shownName hname, List.reverse_cons, if_pos rfl,
    String.toList_ofList]
  by_cases hnil : kept.reverse = []
  · rw [hnil, List.nil_append, List.intercalate_singleton]
    exact ⟨[], rfl⟩
  · rw [intercalate_append hnil (List.cons_ne_nil _ _), List.intercalate_singleton]
    exact ⟨'/' :: List.intercalate ['/'] kept.reverse, rfl⟩

theorem isSome_splitExtension?_iff {extensions : List String} {path : List Char} :
    (splitExtension? extensions path).isSome = true ↔
      ∃ extension ∈ extensions, ∃ stem, TextPath.stem? extension.toList path = some stem := by
  constructor
  · intro h
    obtain ⟨⟨stem, rank⟩, hsplit⟩ := Option.isSome_iff_exists.1 h
    obtain ⟨extension, hat, hstem⟩ := HasStem.exists_stem? hsplit
    exact ⟨extension, List.mem_of_getElem? hat, stem, hstem⟩
  · rintro ⟨extension, hmem, stem, hstem⟩
    obtain ⟨stem, rank, hsplit⟩ := exists_hasStem hmem hstem
    exact Option.isSome_iff_exists.2 ⟨_, hsplit⟩

/-! ## What discovery recognizes -/

namespace Path

variable {p q : Path}

/-- A path that goes down from the root is the root, or has a last name. -/
theorem Descends.root_or_exists_last (h : p.Descends) : p.components = [.root] ∨
    ∃ (outer : Location) (name : FileName), p.components = .root :: (outer ++ [name]).map .name ∧
      name ∈ p.segments ∧ name.IsProper := by
  obtain ⟨place, hplace, hnames⟩ := h.exists_names
  rcases List.eq_nil_or_concat' place with rfl | ⟨outer, name, rfl⟩
  · exact Or.inl hplace
  · exact Or.inr ⟨outer, name, hplace, hnames name (List.mem_append_right _ List.mem_cons_self)⟩

theorem fileName?_of_components {outer : Location} {name : FileName}
    (h : p.components = .root :: (outer ++ [name]).map .name) : p.fileName? = some name := by
  rw [fileName?, h, List.map_append, ← List.cons_append, List.map_singleton, List.getLast?_concat]

theorem extension?_eq_of_same (h : p.same q = true) : p.extension? = q.extension? := by
  rw [extension?, extension?, fileName?, fileName?, same_iff.1 h]

end Path

namespace Discovery

/-- The path has an extension that discovery lists files for. -/
def recognizes (settings : Settings) (p : Path) : Bool :=
  match p.extension? with
  | none => false
  | some extension => settings.extensions.any fun e => Utf8.encode e == extension

variable {settings : Settings} {p : Path} {outer : Location} {name : FileName}

/-- The files that discovery takes are those with a recognized path, however it is spelled. -/
theorem isSource_eq_recognizes {place : Location} (h : place.path.same p = true) :
    isSource settings place = recognizes settings p := by
  rw [isSource, Path.extension?_eq_of_same h]
  rfl

theorem recognizes_iff (hname : p.fileName? = some name)
    (htext : (Utf8.decode? name).isSome = true) : recognizes settings p = true ↔
      ∃ extension ∈ settings.extensions, '.' ∉ extension.toList ∧ HasEnding name extension := by
  have hmatch : recognizes settings p = true ↔
      ∃ extension ∈ settings.extensions, p.extension? = some (Utf8.encode extension) := by
    rw [recognizes]
    cases p.extension? with
    | none => simp
    | some bytes => simp [eq_comm (a := bytes)]
  rw [hmatch, Path.extension?, hname, Option.bind_some]
  exact exists_congr fun extension => and_congr_right fun _ => extensionOf?_eq_encode_iff htext

/-- A stem is left of an identifier exactly if the last name ends in one of the extensions. -/
theorem isSome_split_ofPath_iff (hp : p.components = .root :: (outer ++ [name]).map .name)
    (hname : name.IsProper) (hback : Path.backslash ∉ name) {extensions : List String}
    (hentries : ∀ extension ∈ extensions, '/' ∉ extension.toList) :
    (splitExtension? extensions (FileId.ofPath p).text.toList).isSome = true ↔
      ∃ extension ∈ extensions, HasEnding name extension := by
  obtain ⟨front, hfront⟩ := FileId.exists_ofPath_eq hp hname hback
  have hslash : '/' ∉ Path.shownName name :=
    Path.not_mem_shownName (b := Path.slash) (by decide) hname.no_slash
  rw [isSome_splitExtension?_iff, hfront]
  exact exists_congr fun extension => and_congr_right fun hmem =>
    exists_stem?_iff hslash (hentries extension hmem)

theorem recognizes_root (h : p.components = [.root]) : recognizes settings p = false := by
  have hnone : p.extension? = none := by
    rw [Path.extension?, Path.fileName?, h]
    rfl
  rw [recognizes, hnone]

theorem splitExtension?_root (h : p.components = [.root]) (extensions : List String) :
    splitExtension? extensions (FileId.ofPath p).text.toList = none := by
  have htext : (FileId.ofPath p).text.toList = ['/'] := by
    rw [FileId.ofPath_eq_ofComponents, h]
    rfl
  rw [← Option.not_isSome_iff_eq_none, isSome_splitExtension?_iff, htext]
  rintro ⟨extension, -, stem, hstem⟩
  obtain ⟨hpath, hne, -⟩ := TextPath.stem?_eq_some_iff.1 hstem
  have hlength := congrArg List.length hpath
  have hpos := List.length_pos_iff.2 hne
  simp only [List.length_append, List.length_cons, List.length_nil] at hlength
  omega

end Discovery

open Discovery

/-- Discovery and resolution agree on the extensions of files. Whatever discovery recognizes by its
extension has a stem, for extensions with and without dots, and whatever has a stem by an extension
without a dot is recognized. So if no extension has a dot, what is recognized is what has a stem.
The file name has to be free of `\`, which is shown as a separator. -/
theorem recognizes_split (settings : Settings) (p : Path)
    (hentries : ∀ extension ∈ settings.extensions, '/' ∉ extension.toList) (hp : p.Descends)
    (htext : (Utf8.decode? p.bytes).isSome = true)
    (hback : ∀ name ∈ p.fileName?, Path.backslash ∉ name) :
    let path := (FileId.ofPath p).text.toList
    (∀ place : Location, place.path.same p = true →
      isSource settings place = recognizes settings p) ∧
    (recognizes settings p = true →
      (splitExtension? settings.extensions path).isSome = true) ∧
    ((splitExtension? (settings.extensions.filter ('.' ∉ ·.toList)) path).isSome = true →
      recognizes settings p = true) ∧
    ((∀ extension ∈ settings.extensions, '.' ∉ extension.toList) →
      (recognizes settings p = true ↔
        (splitExtension? settings.extensions path).isSome = true)) := by
  intro path
  refine ⟨fun place => isSource_eq_recognizes, ?_⟩
  rcases hp.root_or_exists_last with hroot | ⟨outer, name, hcomponents, hsegment, hproper⟩
  · simp [path, recognizes_root hroot, splitExtension?_root hroot]
  · have hfile := Path.fileName?_of_components hcomponents
    have hname : Path.backslash ∉ name := hback name hfile
    have htextName : (Utf8.decode? name).isSome = true :=
      Path.isSome_decode?_of_mem_splitOn htext hsegment
    have hsplit := isSome_split_ofPath_iff hcomponents hproper hname hentries
    rw [recognizes_iff hfile htextName, hsplit]
    refine ⟨?_, ?_, ?_⟩
    · rintro ⟨extension, hmem, -, hending⟩
      exact ⟨extension, hmem, hending⟩
    · rw [isSome_split_ofPath_iff hcomponents hproper hname fun extension hmem =>
        hentries extension (List.mem_of_mem_filter hmem)]
      rintro ⟨extension, hmem, hending⟩
      obtain ⟨hmem, hdot⟩ := List.mem_filter.1 hmem
      exact ⟨extension, hmem, of_decide_eq_true hdot, hending⟩
    · intro hdots
      exact exists_congr fun extension => and_congr_right fun hmem =>
        and_iff_right (hdots extension hmem)

/-- A hidden file with two dots more in its name, below a directory with a `\` in its name. -/
theorem recognizes_split_of_hidden :
    let settings : Settings := { extensions := ["d.ts", "ts"] }
    let p := Path.ofString "/p\\q//.x.d.ts/"
    isSource settings [Utf8.encode "p\\q", Utf8.encode ".x.d.ts"] = true ∧
      (splitExtension? ["d.ts", "ts"] (FileId.ofPath p).text.toList).isSome = true := by
  intro settings p
  have hp : p.Descends := ⟨by decide, by decide, by decide⟩
  have hback : ∀ name ∈ p.fileName?, Path.backslash ∉ name := by decide
  obtain ⟨hsource, hstem, hlisted, -⟩ :=
    recognizes_split settings p (by decide) hp (by decide +kernel) hback
  have hrecognized : recognizes settings p = true := hlisted (by decide +kernel)
  refine ⟨?_, hstem hrecognized⟩
  rw [hsource _ (by decide +kernel), hrecognized]

/-- A `\` in the name of a file hides what stands before it from resolution, and an extension with a
dot in it is none that discovery knows. -/
theorem not_recognizes_iff_split :
    (let settings : Settings := { extensions := ["ts"] }
      let p := Path.ofString "/p/a\\.ts"
      (∀ extension ∈ settings.extensions, '/' ∉ extension.toList) ∧ p.Descends ∧
        (Utf8.decode? p.bytes).isSome = true ∧
        ¬ (recognizes settings p = true ↔
          (splitExtension? settings.extensions (FileId.ofPath p).text.toList).isSome = true)) ∧
    let settings : Settings := { extensions := ["d.ts"] }
    let p := Path.ofString "/p/a.d.ts"
    (∀ extension ∈ settings.extensions, '/' ∉ extension.toList) ∧ p.Descends ∧
      (Utf8.decode? p.bytes).isSome = true ∧
      ¬ (recognizes settings p = true ↔
        (splitExtension? settings.extensions (FileId.ofPath p).text.toList).isSome = true) := by
  refine ⟨?_, ?_⟩
  · exact ⟨by decide, ⟨by decide, by decide, by decide⟩, by decide +kernel, by decide +kernel⟩
  · exact ⟨by decide, ⟨by decide, by decide, by decide⟩, by decide +kernel, by decide +kernel⟩

end ModuleGraph
