import ModuleGraph.FileId
import ModuleGraph.Proofs.Splitting
import ModuleGraph.Proofs.Text.Boundary

/-!
# One path, one identifier

Spellings of one path have the same components, and the identifier of a file is made from these
alone (`ofPath_eq_ofComponents`): a path may be cut at its slashes before it is shown, since no
character reaches over a slash, and what is no component, an empty segment or a `.`, goes no step
in the text either. A name may hold more than one step all the same, for `\` is an ordinary byte
of a path and a separator of text.
-/

namespace ModuleGraph

open Text TextPath

namespace Path

/-- The segments of bytes that are shown as text. -/
def shown (bytes : List UInt8) : List (List Char) :=
  (unify (Utf8.decodeLossy bytes).toList).splitOn '/'

/-- The segments of a component that is shown as text. -/
def Component.shown : Component → List (List Char)
  | .root | .here => []
  | .up => [TextPath.up]
  | .name bytes => Path.shown bytes

/-- The text of a path with these components starts at the root. -/
def leads : List Component → Bool
  | .root :: _ => true
  | .name bytes :: _ => TextPath.isAbsolute (unify (Utf8.decodeLossy bytes).toList)
  | _ => false

end Path

/-- The identifier of a file at a path with these components. -/
def FileId.ofComponents (components : List Path.Component) : FileId :=
  let kept := (components.flatMap Path.Component.shown).foldl (enter (Path.leads components)) []
  let body := List.intercalate ['/'] kept.reverse
  ⟨String.ofList (if Path.leads components then '/' :: body else body)⟩

namespace Path

/-! ## Cutting at slashes -/

theorem unify_decodeLossy_append (front rest : List UInt8) :
    unify (Utf8.decodeLossy (front ++ slash :: rest)).toList =
      unify (Utf8.decodeLossy front).toList ++ '/' :: unify (Utf8.decodeLossy rest).toList := by
  rw [Utf8.decodeLossy_append (by decide), unify, List.map_append, List.map_cons]
  rfl

theorem shown_nil : shown [] = [[]] := by
  rw [shown, Utf8.decodeLossy_nil]
  rfl

theorem shown_append (front rest : List UInt8) :
    shown (front ++ slash :: rest) = shown front ++ shown rest := by
  rw [shown, unify_decodeLossy_append, List.splitOn_append_cons_self]
  rfl

theorem shown_eq_flatMap (p : Path) : shown p.bytes = p.segments.flatMap shown := by
  have hjoined : ∀ segments : List (List UInt8), segments ≠ [] →
      shown (List.intercalate [slash] segments) = segments.flatMap shown := by
    intro segments hne
    induction segments with
    | nil => exact absurd rfl hne
    | cons segment rest ih =>
        cases rest with
        | nil => rw [List.intercalate_singleton, List.flatMap_singleton]
        | cons next rest =>
            rw [List.intercalate_cons_cons, List.append_assoc, List.singleton_append, shown_append,
              ih (List.cons_ne_nil _ _)]
            rfl
  rw [← hjoined p.segments (List.splitOn_ne_nil _ _), segments, List.intercalate_splitOn]

/-- What a path starts with, and whether anything comes after it. -/
theorem bytes_of_segments {p : Path} {first : List UInt8} {rest : List (List UInt8)}
    (h : p.segments = first :: rest) :
    p.bytes = first ∨ ∃ more, p.bytes = first ++ slash :: more := by
  have hjoined : p.bytes = List.intercalate [slash] (first :: rest) := by
    rw [← h, segments, List.intercalate_splitOn]
  cases rest with
  | nil =>
      rw [List.intercalate_singleton] at hjoined
      exact Or.inl hjoined
  | cons next rest =>
      rw [List.intercalate_cons_cons, List.append_assoc, List.singleton_append] at hjoined
      exact Or.inr ⟨_, hjoined⟩

theorem segments_of_isAbsolute {p : Path} (h : p.isAbsolute = true) :
    ∃ more, p.bytes = slash :: more ∧ p.segments = [] :: more.splitOn slash := by
  obtain ⟨more, hbytes⟩ := List.head?_eq_some_iff.1 (eq_of_beq h)
  refine ⟨more, hbytes, ?_⟩
  rw [segments, hbytes, splitOn_cons_self]

/-! ## What is no component goes no step -/

theorem decodeLossy_dot (bytes : List UInt8) :
    (Utf8.decodeLossy (dot :: bytes)).toList = '.' :: (Utf8.decodeLossy bytes).toList := by
  have h := Utf8.decodeLossy_append (b := dot) (by decide) [] bytes
  rw [Utf8.decodeLossy_nil] at h
  exact h

theorem foldl_enter_shown (absolute : Bool) (kept : List (List Char)) (segment : List UInt8) :
    (shown segment).foldl (enter absolute) kept =
      ((Component.ofSegment? segment).toList.flatMap Component.shown).foldl (enter absolute)
        kept := by
  unfold Component.ofSegment?
  split
  · next h =>
      rcases h with rfl | rfl
      · rw [shown_nil]
        simp [enter]
      · rw [shown, decodeLossy_dot, Utf8.decodeLossy_nil]
        rfl
  · split
    · next h =>
        rw [h, shown, decodeLossy_dot, decodeLossy_dot, Utf8.decodeLossy_nil]
        rfl
    · simp [Component.shown]

theorem foldl_enter_flatMap (absolute : Bool) (kept : List (List Char))
    (segments : List (List UInt8)) :
    (segments.flatMap shown).foldl (enter absolute) kept =
      ((segments.filterMap Component.ofSegment?).flatMap Component.shown).foldl (enter absolute)
        kept := by
  induction segments generalizing kept with
  | nil => rfl
  | cons segment rest ih =>
      rw [List.flatMap_cons, List.foldl_append, foldl_enter_shown, ih, ← List.foldl_append,
        ← List.flatMap_append]
      cases h : Component.ofSegment? segment with
      | none => simp [h]
      | some c => simp [h]

/-- The components of a path go the steps of its text. -/
theorem foldl_enter_components (absolute : Bool) (p : Path) :
    (shown p.bytes).foldl (enter absolute) [] =
      (p.components.flatMap Component.shown).foldl (enter absolute) [] := by
  rw [shown_eq_flatMap, foldl_enter_flatMap]
  unfold components
  cases h : p.segments with
  | nil => rfl
  | cons first rest =>
      dsimp only
      split
      · next hroot =>
          obtain ⟨more, -, hsegments⟩ := segments_of_isAbsolute hroot
          rw [h] at hsegments
          cases hsegments
          rfl
      · split
        · next hhere => rw [hhere]; rfl
        · cases hfirst : Component.ofSegment? first with
          | none => simp [hfirst]
          | some c => simp [hfirst]

/-- Whether a relative path is shown as an absolute one is seen from its first segment. -/
theorem isAbsolute_shown_of_relative {p : Path} {first : List UInt8} {rest : List (List UInt8)}
    (h : p.segments = first :: rest) (hroot : ¬ p.isAbsolute = true) :
    TextPath.isAbsolute (unify (Utf8.decodeLossy p.bytes).toList) =
      TextPath.isAbsolute (unify (Utf8.decodeLossy first).toList) := by
  rcases bytes_of_segments h with hbytes | ⟨more, hbytes⟩
  · rw [hbytes]
  · cases first with
    | nil =>
        rw [isAbsolute, hbytes] at hroot
        exact absurd rfl hroot
    | cons b bytes =>
        have hfirst : ∃ c cs, unify (Utf8.decodeLossy (b :: bytes)).toList = c :: cs := by
          rw [Utf8.decodeLossy, Utf8.chunks, String.toList_ofList]
          exact ⟨_, _, rfl⟩
        obtain ⟨c, cs, hcs⟩ := hfirst
        rw [hbytes, unify_decodeLossy_append, hcs]
        rfl

/-- A relative path that starts with an empty segment has no other. -/
theorem rest_of_relative {p : Path} {rest : List (List UInt8)} (h : p.segments = [] :: rest)
    (hroot : ¬ p.isAbsolute = true) : rest = [] := by
  rcases bytes_of_segments h with hbytes | ⟨more, hbytes⟩
  · rw [segments, hbytes, List.splitOn_nil] at h
    exact (List.cons.inj h).2.symm
  · rw [isAbsolute, hbytes] at hroot
    exact absurd rfl hroot

/-- The components of a path say whether its text starts at the root. -/
theorem isAbsolute_shown (p : Path) :
    TextPath.isAbsolute (unify (Utf8.decodeLossy p.bytes).toList) = leads p.components := by
  unfold components
  cases h : p.segments with
  | nil => exact absurd h (List.splitOn_ne_nil _ _)
  | cons first rest =>
      dsimp only
      split
      · next hroot =>
          obtain ⟨more, hbytes, -⟩ := segments_of_isAbsolute hroot
          rw [hbytes, ← List.nil_append (slash :: more), unify_decodeLossy_append,
            Utf8.decodeLossy_nil]
          rfl
      · next hroot =>
          rw [isAbsolute_shown_of_relative h hroot]
          split
          · next hhere =>
              rw [hhere, decodeLossy_dot]
              rfl
          · next hhere =>
              unfold Component.ofSegment?
              split
              · next hnone =>
                  have hnil : first = [] := hnone.resolve_right hhere
                  subst hnil
                  rw [rest_of_relative h hroot, Utf8.decodeLossy_nil]
                  rfl
              · split
                · next hup =>
                    rw [hup, decodeLossy_dot]
                    rfl
                · rfl

end Path

/-- The identifier of a file is made from the components of its path. -/
theorem FileId.ofPath_eq_ofComponents (p : Path) :
    FileId.ofPath p = FileId.ofComponents p.components := by
  have hsegments : TextPath.segments (unify p.display.toList) =
      ((p.components.flatMap Path.Component.shown).foldl (enter (Path.leads p.components))
        []).reverse := by
    rw [TextPath.segments, Path.display, Path.isAbsolute_shown, ← Path.foldl_enter_components]
    rfl
  rw [ofPath, ofString, ofComponents, TextPath.normalize, hsegments, Path.display,
    Path.isAbsolute_shown]

theorem FileId.ofPath_eq_of_same {p q : Path} (h : p.same q = true) :
    FileId.ofPath p = FileId.ofPath q := by
  rw [ofPath_eq_ofComponents, ofPath_eq_ofComponents, Path.same_iff.1 h]

end ModuleGraph
