import ModuleGraph.Proofs.Path.Identity
import ModuleGraph.Proofs.Path.Location
import ModuleGraph.Proofs.Path.Segments
import ModuleGraph.Proofs.Text.Encoding

/-!
# Different paths, different identifiers

A path that starts at the root and goes down from there is a list of names. If no name holds a `\`,
the identifier of the file has one segment for each name, which is the name as it is shown
(`toList_ofPath`): no step is taken back and none falls out. Two such files have one identifier
exactly if their names are shown alike, one by one (`ofPath_eq_iff`). A name that is text is shown
as what it is, so plain paths with one identifier are one path (`same_of_ofPath_eq`). Names that
are not text can be shown alike, and a `\` is shown as a separator that it is not.
-/

namespace ModuleGraph

open Text TextPath

namespace Path

def backslash : UInt8 := 0x5C

/-- The path starts at the root and only goes down from there: no component is a `.`, which could
only be the first one, or a `..`. -/
structure Descends (p : Path) : Prop where
  absolute : p.isAbsolute = true
  no_here : Component.here ∉ p.components
  no_up : Component.up ∉ p.components

/-- The path is text without a `\`. -/
structure IsPlain (p : Path) : Prop where
  text : (Utf8.decode? p.bytes).isSome = true
  no_backslash : backslash ∉ p.bytes

/-- A name as it is shown. -/
def shownName (name : FileName) : List Char :=
  (Utf8.decodeLossy name).toList

/-- The name that is text and shown as these characters. -/
def named (shown : List Char) : FileName :=
  Utf8.encode (String.ofList shown)

variable {p q : Path} {name : FileName}

/-! ## The names on the way down -/

theorem exists_names_of_segments {segments : List (List UInt8)}
    (hslash : ∀ segment ∈ segments, slash ∉ segment)
    (hup : Component.up ∉ segments.filterMap Component.ofSegment?) :
    ∃ place : Location, segments.filterMap Component.ofSegment? = place.map .name ∧
      ∀ name ∈ place, name ∈ segments ∧ FileName.IsProper name := by
  induction segments with
  | nil => exact ⟨[], rfl, fun _ h => absurd h List.not_mem_nil⟩
  | cons segment segments ih =>
      obtain ⟨hfirst, hrest⟩ := List.forall_mem_cons.1 hslash
      have hup' : Component.up ∉ segments.filterMap Component.ofSegment? := fun h =>
        hup (((List.sublist_cons_self segment segments).filterMap _).subset h)
      obtain ⟨place, hplace, hnames⟩ := ih hrest hup'
      by_cases hskip : segment = [] ∨ segment = [dot]
      · have hnone : Component.ofSegment? segment = none := if_pos hskip
        refine ⟨place, ?_, fun name hname => ?_⟩
        · rw [List.filterMap_cons_none hnone, hplace]
        · exact ⟨List.mem_cons_of_mem _ (hnames name hname).1, (hnames name hname).2⟩
      · rw [not_or] at hskip
        have hproper : FileName.IsProper segment := by
          refine ⟨hskip.1, hskip.2, ?_, hfirst⟩
          rintro rfl
          exact hup List.mem_cons_self
        refine ⟨segment :: place, ?_, ?_⟩
        · rw [List.filterMap_cons_some (Component.ofSegment?_of_isProper hproper), hplace]
          rfl
        · rw [List.forall_mem_cons]
          refine ⟨⟨List.mem_cons_self, hproper⟩, fun name hname => ?_⟩
          exact ⟨List.mem_cons_of_mem _ (hnames name hname).1, (hnames name hname).2⟩

/-- A path that goes down from the root is a list of names. -/
theorem Descends.exists_names (h : p.Descends) :
    ∃ place : Location, p.components = .root :: place.map .name ∧
      ∀ name ∈ place, name ∈ p.segments ∧ FileName.IsProper name := by
  obtain ⟨rest, hbytes, hsegments⟩ := segments_of_isAbsolute h.absolute
  have hcomponents : p.components = .root :: added rest :=
    (congrArg (fun bytes => components ⟨bytes⟩) hbytes).trans (components_slash rest)
  have hup : Component.up ∉ added rest := fun hmem =>
    h.no_up (hcomponents ▸ List.mem_cons_of_mem _ hmem)
  obtain ⟨place, hplace, hnames⟩ :=
    exists_names_of_segments (fun _ => not_mem_of_mem_splitOn) hup
  refine ⟨place, hcomponents.trans (congrArg _ hplace), fun name hname => ?_⟩
  rw [hsegments]
  exact ⟨List.mem_cons_of_mem _ (hnames name hname).1, (hnames name hname).2⟩

/-! ## Names as they are shown -/

theorem not_mem_shownName {b : UInt8} (hb : b.toNat < 0x80) (h : b ∉ name) :
    Char.ofNat b.toNat ∉ shownName name := fun hmem => h (Utf8.mem_of_mem_decodeLossy hb hmem)

/-- A name without a `\` is shown as one segment. -/
theorem shown_of_isProper (h : name.IsProper) (hback : backslash ∉ name) :
    shown name = [shownName name] := by
  have hunified : unify (shownName name) = shownName name := by
    have hkept : ∀ c ∈ shownName name, (if c = '\\' then '/' else c) = id c := by
      intro c hc
      refine if_neg ?_
      rintro rfl
      exact not_mem_shownName (b := backslash) (by decide) hback hc
    rw [unify, List.map_congr_left hkept, List.map_id]
  rw [shown, ← shownName, hunified]
  exact List.splitOn_eq_singleton (not_mem_shownName (b := slash) (by decide) h.no_slash)

/-- Only text is shown as a text without a replacement character. -/
theorem shownName_ne {s : String} (hs : '\uFFFD' ∉ s.toList) (h : name ≠ Utf8.encode s) :
    shownName name ≠ s.toList := fun heq =>
  h (Utf8.eq_encode_of_decodeLossy (String.toList_inj.1 heq) hs)

theorem shownName_ne_nil (h : name.IsProper) : shownName name ≠ [] :=
  shownName_ne (s := "") (by decide) h.ne_nil

/-- What is shown of a name is a step to the file or directory of that name. -/
theorem enter_shownName (h : name.IsProper) (absolute : Bool) (kept : List (List Char)) :
    enter absolute kept (shownName name) = shownName name :: kept := by
  have hnil : shownName name ≠ [] := shownName_ne_nil h
  have hhere : shownName name ≠ here := shownName_ne (s := ".") (by decide) h.ne_dot
  have hup : shownName name ≠ up := shownName_ne (s := "..") (by decide) h.ne_dots
  unfold enter
  rw [if_neg (not_or.2 ⟨hnil, hhere⟩), if_neg hup]

theorem foldl_enter_shownName {place : Location} (h : ∀ name ∈ place, FileName.IsProper name)
    (absolute : Bool) (kept : List (List Char)) :
    (place.map shownName).foldl (enter absolute) kept = (place.map shownName).reverse ++ kept := by
  induction place generalizing kept with
  | nil => rfl
  | cons name place ih =>
      obtain ⟨hname, hplace⟩ := List.forall_mem_cons.1 h
      rw [List.map_cons, List.foldl_cons, enter_shownName hname, ih hplace, List.reverse_cons,
        List.append_assoc]
      rfl

/-- The segments of text are text. -/
theorem isSome_decode?_of_mem_splitOn {bytes segment : List UInt8}
    (h : (Utf8.decode? bytes).isSome = true) (hmem : segment ∈ bytes.splitOn slash) :
    (Utf8.decode? segment).isSome = true := by
  rw [Utf8.isSome_decode?_iff] at h ⊢
  induction bytes using splitOn_induct with
  | last s hs =>
      rw [List.mem_singleton.1 hmem]
      exact h
  | next s rest hs ih =>
      rw [Utf8.chunks_append (by decide), List.mem_append, List.mem_cons, not_or, not_or] at h
      rcases List.mem_cons.1 hmem with rfl | hmem
      · exact h.1
      · exact ih h.2.2 hmem

/-- Names that are text are read back from what is shown. -/
theorem map_named_map_shownName {names : List FileName}
    (h : ∀ name ∈ names, (Utf8.decode? name).isSome = true) :
    (names.map shownName).map named = names := by
  have hread : ∀ name ∈ names, (named ∘ shownName) name = id name := by
    intro name hname
    obtain ⟨s, hs⟩ := Option.isSome_iff_exists.1 (h name hname)
    rw [Function.comp_apply, named, shownName, String.ofList_toList,
      Utf8.decodeLossy_of_decode? hs, Utf8.encode_of_decode? hs, id]
  rw [List.map_map, List.map_congr_left hread, List.map_id]

end Path

variable {p q : Path} {place place' : Location}

/-- The names on the way down are the segments of the identifier, as they are shown. -/
theorem FileId.toList_ofPath (hp : p.components = .root :: place.map .name)
    (hproper : ∀ name ∈ place, FileName.IsProper name)
    (hback : ∀ name ∈ place, Path.backslash ∉ name) :
    (FileId.ofPath p).text.toList = '/' :: List.intercalate ['/'] (place.map Path.shownName) := by
  have hnames : (place.map Path.Component.name).flatMap Path.Component.shown =
      place.map Path.shownName := by
    rw [List.flatMap_map, List.map_eq_flatMap]
    exact List.flatMap_congr fun name hname =>
      Path.shown_of_isProper (hproper name hname) (hback name hname)
  have hshown : p.components.flatMap Path.Component.shown = place.map Path.shownName := by
    rw [hp, List.flatMap_cons, hnames]
    rfl
  have hleads : Path.leads p.components = true := by
    rw [hp]
    rfl
  rw [ofPath_eq_ofComponents, ofComponents, hshown, hleads, Path.foldl_enter_shownName hproper,
    List.append_nil, List.reverse_reverse, if_pos rfl, String.toList_ofList]

/-- Without a `\` in a name, two files have one identifier exactly if their names are shown alike,
one by one. -/
theorem FileId.ofPath_eq_iff (hp : p.components = .root :: place.map .name)
    (hq : q.components = .root :: place'.map .name)
    (hproper : ∀ name ∈ place ++ place', FileName.IsProper name)
    (hback : ∀ name ∈ place ++ place', Path.backslash ∉ name) :
    FileId.ofPath p = FileId.ofPath q ↔ place.map Path.shownName = place'.map Path.shownName := by
  have hsegments : ∀ segment ∈ (place ++ place').map Path.shownName,
      segment ≠ [] ∧ '/' ∉ segment := by
    rw [List.forall_mem_map]
    exact fun name hname => ⟨Path.shownName_ne_nil (hproper name hname),
      Path.not_mem_shownName (b := Path.slash) (by decide) (hproper name hname).no_slash⟩
  rw [List.map_append, List.forall_mem_append] at hsegments
  rw [List.forall_mem_append] at hproper hback
  have htext := toList_ofPath hp hproper.1 hback.1
  have htext' := toList_ofPath hq hproper.2 hback.2
  constructor
  · intro h
    rw [h, htext'] at htext
    rw [← filter_splitOn_intercalate hsegments.1, ← (List.cons.inj htext).2,
      filter_splitOn_intercalate hsegments.2]
  · intro h
    rw [h, ← htext'] at htext
    exact congrArg FileId.mk (String.toList_inj.1 htext)

namespace Path

theorem IsPlain.of_mem_segments (h : p.IsPlain) {segment : List UInt8}
    (hmem : segment ∈ p.segments) : IsPlain ⟨segment⟩ :=
  ⟨isSome_decode?_of_mem_splitOn h.text hmem, fun hback =>
    h.no_backslash (subset_of_mem_splitOn hmem hback)⟩

/-- Plain paths with one identifier are one path. -/
theorem same_of_ofPath_eq (hp : p.Descends) (hq : q.Descends) (hplain : p.IsPlain)
    (hplain' : q.IsPlain) (h : FileId.ofPath p = FileId.ofPath q) : p.same q = true := by
  obtain ⟨place, hplace, hnames⟩ := hp.exists_names
  obtain ⟨place', hplace', hnames'⟩ := hq.exists_names
  have hplains : ∀ name ∈ place ++ place', IsPlain ⟨name⟩ := List.forall_mem_append.2
    ⟨fun name hname => hplain.of_mem_segments (hnames name hname).1,
      fun name hname => hplain'.of_mem_segments (hnames' name hname).1⟩
  have hproper : ∀ name ∈ place ++ place', FileName.IsProper name := List.forall_mem_append.2
    ⟨fun name hname => (hnames name hname).2, fun name hname => (hnames' name hname).2⟩
  have hshown : place.map shownName = place'.map shownName :=
    (FileId.ofPath_eq_iff hplace hplace' hproper fun name hname =>
      (hplains name hname).no_backslash).1 h
  have htext := List.forall_mem_append.1 fun name hname => (hplains name hname).text
  have hsame : place = place' := by
    rw [← map_named_map_shownName htext.1, hshown, map_named_map_shownName htext.2]
  rw [same_iff, hplace, hplace', hsame]

end Path

end ModuleGraph
