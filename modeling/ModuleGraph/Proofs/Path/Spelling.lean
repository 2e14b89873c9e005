import Mathlib.Logic.Relation
import ModuleGraph.Proofs.Path.Segments

/-!
# Spellings of one path

Three things can be dropped from a path without changing it: a slash after a slash, a slash at the
end, and a `.` after a slash. `Respells` relates the spellings that differ by these, any number of
times and either way. Each path respells the one that its components are joined to
(`respells_ofComponents`), so two paths with the same components are spellings of each other, and
no others are (`same_iff_respells`). What is never dropped is the same in all spellings of a path:
the first segment, and the segments that are not empty and not `.`, a `..` among them.
-/

namespace ModuleGraph.Path

open Relation

/-- The second path is the first one without a slash or a `.` that does not count. -/
inductive Drops : Path → Path → Prop
  | repeated (front rest : List UInt8) :
      Drops ⟨front ++ slash :: slash :: rest⟩ ⟨front ++ slash :: rest⟩
  | trailing {front : List UInt8} : front ≠ [] → Drops ⟨front ++ [slash]⟩ ⟨front⟩
  | here (front : List UInt8) {rest : List UInt8} : rest = [] ∨ rest.head? = some slash →
      Drops ⟨front ++ slash :: dot :: rest⟩ ⟨front ++ slash :: rest⟩

/-- The paths differ by slashes and `.`s that do not count. -/
abbrev Respells : Path → Path → Prop :=
  EqvGen Drops

/-- A component as it is spelled. -/
def Component.spelled : Component → List UInt8
  | .root => [slash]
  | .here => [dot]
  | .up => [dot, dot]
  | .name bytes => bytes

/-- The path that components are joined to. -/
def ofComponents (components : List Component) : Path :=
  components.foldl (fun p c => p.join ⟨c.spelled⟩) ⟨[]⟩

variable {p q : Path} {front rest segment : List UInt8}

/-! ## What is dropped does not count -/

/-- What no drop changes is the same in all spellings. -/
theorem Respells.map_eq {α : Type} (f : Path → α) (hf : ∀ p q, Drops p q → f p = f q)
    (h : Respells p q) : f p = f q := by
  induction h with
  | rel p q hdrops => exact hf p q hdrops
  | refl p => rfl
  | symm p q _ ih => exact ih.symm
  | trans p q r _ _ ih ih' => exact ih.trans ih'

theorem added_slash (rest : List UInt8) : added (slash :: rest) = added rest :=
  added_append [] rest

theorem added_dot (h : rest = [] ∨ rest.head? = some slash) : added (dot :: rest) = added rest := by
  rcases h with rfl | h
  · rfl
  · obtain ⟨more, rfl⟩ := List.head?_eq_some_iff.1 h
    exact (added_append [dot] more).trans (added_slash more).symm

/-- What stands before a slash has the same components whatever follows. -/
theorem exists_components_append (front : List UInt8) : ∃ outer : List Component,
    ∀ rest, components ⟨front ++ slash :: rest⟩ = outer ++ added rest := by
  by_cases hne : front = []
  · exact ⟨[.root], fun rest => by rw [hne]; exact components_slash rest⟩
  · exact ⟨components ⟨front⟩, components_append hne⟩

theorem Drops.components (h : Drops p q) : p.components = q.components := by
  cases h with
  | repeated front rest =>
      obtain ⟨outer, houter⟩ := exists_components_append front
      rw [houter, houter, added_slash]
  | trailing hne => rw [components_append hne, added_nil, List.append_nil]
  | here front hrest =>
      obtain ⟨outer, houter⟩ := exists_components_append front
      rw [houter, houter, added_dot hrest]

theorem Respells.components (h : Respells p q) : p.components = q.components :=
  h.map_eq Path.components fun _ _ => Drops.components

/-- An empty path has no other spelling. -/
theorem Respells.eq_nil_iff (h : Respells p q) : p.bytes = [] ↔ q.bytes = [] := by
  refine iff_of_eq (h.map_eq (·.bytes = []) ?_)
  intro p q hdrops
  cases hdrops with
  | repeated front rest => simp
  | trailing hne => simp [hne]
  | here front hrest => simp

/-- What a path goes on with after a slash stays when the path is respelled. -/
theorem Respells.append (h : Respells p q) (more : List UInt8) :
    Respells ⟨p.bytes ++ slash :: more⟩ ⟨q.bytes ++ slash :: more⟩ := by
  induction h with
  | rel p q hdrops =>
      cases hdrops with
      | repeated front rest =>
          have hdrop := Drops.repeated front (rest ++ slash :: more)
          simpa using EqvGen.rel _ _ hdrop
      | @trailing front hne =>
          have hdrop := Drops.repeated front more
          simpa using EqvGen.rel _ _ hdrop
      | @here front rest hrest =>
          have hafter : rest ++ slash :: more = [] ∨ (rest ++ slash :: more).head? = some slash := by
            rcases hrest with rfl | hrest
            · exact Or.inr rfl
            · rw [List.head?_append, hrest]
              exact Or.inr rfl
          have hdrop := Drops.here front hafter
          simpa using EqvGen.rel _ _ hdrop
  | refl p => exact .refl _
  | symm p q _ ih => exact .symm _ _ ih
  | trans p q r _ _ ih ih' => exact .trans _ _ _ ih ih'

/-! ## Components joined to a path -/

theorem ofComponents_concat (components : List Component) (c : Component) :
    ofComponents (components ++ [c]) = (ofComponents components).join ⟨c.spelled⟩ :=
  List.foldl_append

theorem nil_join (q : Path) : join ⟨[]⟩ q = q := by
  unfold join
  split <;> rfl

theorem Component.spelled_of_ofSegment? {c : Component}
    (h : Component.ofSegment? segment = some c) : c.spelled = segment := by
  unfold ofSegment? at h
  split at h
  · cases h
  · split at h
    · next hup =>
        cases h
        exact hup.symm
    · cases h
      rfl

theorem Component.eq_of_ofSegment?_eq_none (h : Component.ofSegment? segment = none) :
    segment = [] ∨ segment = [dot] := by
  unfold ofSegment? at h
  split at h
  · assumption
  · split at h <;> cases h

theorem isAbsolute_of_no_slash (h : slash ∉ segment) : isAbsolute ⟨segment⟩ = false := by
  cases segment with
  | nil => rfl
  | cons b segment =>
      have hb : b ≠ slash := fun heq => h (heq ▸ List.mem_cons_self)
      simpa [isAbsolute] using hb

/-- A segment is joined by a slash, unless one is there already. -/
theorem respells_join (hp : p.bytes ≠ []) (h : slash ∉ segment) :
    Respells ⟨p.bytes ++ slash :: segment⟩ (p.join ⟨segment⟩) := by
  have hjoin : p.join ⟨segment⟩ = if p.bytes.getLast? = some slash then ⟨p.bytes ++ segment⟩
      else ⟨p.bytes ++ slash :: segment⟩ := by
    simp [join, isAbsolute_of_no_slash h, hp]
  rw [hjoin]
  split
  · next hlast =>
      obtain ⟨front, hfront⟩ := List.getLast?_eq_some_iff.1 hlast
      have hdrop := Drops.repeated front segment
      rw [hfront]
      simpa using EqvGen.rel _ _ hdrop
  · exact .refl _

/-- The path respells the one that its components are joined to. -/
def IsRespelling (p : Path) : Prop :=
  Respells p (ofComponents p.components)

theorem isRespelling_of_no_slash (h : slash ∉ segment) : IsRespelling ⟨segment⟩ := by
  have hspelled : ofComponents (components ⟨segment⟩) = ⟨segment⟩ := by
    simp only [components, segments, List.splitOn_eq_singleton h, isAbsolute_of_no_slash h,
      Bool.false_eq_true, if_false, List.filterMap_nil, List.append_nil]
    split
    · next hhere =>
        rw [hhere]
        rfl
    · next hhere =>
        cases hc : Component.ofSegment? segment with
        | none =>
            rw [(Component.eq_of_ofSegment?_eq_none hc).resolve_right hhere]
            rfl
        | some c =>
            rw [← Component.spelled_of_ofSegment? hc]
            exact nil_join _
  rw [IsRespelling, hspelled]
  exact .refl _

theorem IsRespelling.concat_of_ne_nil (h : IsRespelling ⟨front⟩) (hne : front ≠ [])
    (hs : slash ∉ segment) : IsRespelling ⟨front ++ slash :: segment⟩ := by
  rw [IsRespelling, components_append hne, added_of_no_slash hs]
  cases hc : Component.ofSegment? segment with
  | none =>
      rw [Option.toList_none, List.append_nil]
      refine .trans _ _ _ ?_ h
      rcases Component.eq_of_ofSegment?_eq_none hc with rfl | rfl
      · exact .rel _ _ (.trailing hne)
      · exact .trans _ _ _ (.rel _ _ (.here front (Or.inl rfl))) (.rel _ _ (.trailing hne))
  | some c =>
      have hne' : (ofComponents (components ⟨front⟩)).bytes ≠ [] := mt h.eq_nil_iff.2 hne
      rw [Option.toList_some, ofComponents_concat, Component.spelled_of_ofSegment? hc]
      exact .trans _ _ _ (h.append segment) (respells_join hne' hs)

/-- One more segment after a slash. -/
theorem IsRespelling.concat (h : IsRespelling ⟨front⟩) (hs : slash ∉ segment) :
    IsRespelling ⟨front ++ slash :: segment⟩ := by
  by_cases hne : front = []
  · -- nothing before the slash is the root, which is spelled as the slash itself
    have hroot : IsRespelling ⟨[slash]⟩ := .refl _
    have hdrop : Respells ⟨[slash] ++ slash :: segment⟩ ⟨[] ++ slash :: segment⟩ :=
      .rel _ _ (.repeated [] segment)
    have hlonger := hroot.concat_of_ne_nil (List.cons_ne_nil _ _) hs
    rw [IsRespelling, hdrop.components] at hlonger
    rw [hne]
    exact .trans _ _ _ (.symm _ _ hdrop) hlonger
  · exact h.concat_of_ne_nil hne hs

/-- Any more segments after a slash. -/
theorem IsRespelling.append (h : IsRespelling ⟨front⟩) (rest : List UInt8) :
    IsRespelling ⟨front ++ slash :: rest⟩ := by
  induction rest using splitOn_induct generalizing front with
  | last segment hs => exact h.concat hs
  | next segment rest hs ih =>
      have hrest := ih (h.concat hs)
      rwa [List.append_assoc, List.cons_append] at hrest

theorem respells_ofComponents (p : Path) : IsRespelling p := by
  obtain ⟨bytes⟩ := p
  by_cases h : slash ∈ bytes
  · obtain ⟨segment, rest, rfl, hs⟩ := List.eq_append_cons_of_mem h
    exact (isRespelling_of_no_slash hs).append rest
  · exact isRespelling_of_no_slash h

/-- Spellings of one path are those that differ by what does not count. -/
theorem same_iff_respells : p.same q = true ↔ Respells p q := by
  rw [same_iff]
  constructor
  · intro h
    have hp := respells_ofComponents p
    rw [IsRespelling, h] at hp
    exact .trans _ _ _ hp (.symm _ _ (respells_ofComponents q))
  · exact Respells.components

example : (ofString "a//b/./").same (ofString "a/b") = true ∧
    (ofString "./a").same (ofString "a") = false := by decide

/-! ## What counts -/

/-- The segments that count wherever they stand: a `..`, and any name with every byte of it. -/
def keptSegments (p : Path) : List (List UInt8) :=
  p.segments.filter fun segment => segment ≠ [] ∧ segment ≠ [dot]

theorem keptSegments_append (front rest : List UInt8) :
    keptSegments ⟨front ++ slash :: rest⟩ = keptSegments ⟨front⟩ ++ keptSegments ⟨rest⟩ := by
  rw [keptSegments, segments, List.splitOn_append_cons_self, List.filter_append]
  rfl

theorem keptSegments_slash (rest : List UInt8) :
    keptSegments ⟨slash :: rest⟩ = keptSegments ⟨rest⟩ :=
  keptSegments_append [] rest

theorem keptSegments_dot (h : rest = [] ∨ rest.head? = some slash) :
    keptSegments ⟨dot :: rest⟩ = keptSegments ⟨rest⟩ := by
  rcases h with rfl | h
  · rfl
  · obtain ⟨more, rfl⟩ := List.head?_eq_some_iff.1 h
    exact (keptSegments_append [dot] more).trans (keptSegments_slash more).symm

/-- Spellings of one path have the same segments, apart from those that can be dropped. -/
theorem Respells.keptSegments (h : Respells p q) : p.keptSegments = q.keptSegments := by
  refine h.map_eq Path.keptSegments ?_
  intro p q hdrops
  cases hdrops with
  | repeated front rest => rw [keptSegments_append, keptSegments_slash, keptSegments_append]
  | trailing hne => exact (keptSegments_append _ []).trans (List.append_nil _)
  | here front hrest => rw [keptSegments_append, keptSegments_dot hrest, keptSegments_append]

theorem head?_segments_append (front rest : List UInt8) :
    (segments ⟨front ++ slash :: rest⟩).head? = (segments ⟨front⟩).head? := by
  obtain ⟨first, more, hfront⟩ := List.exists_cons_of_ne_nil (List.splitOn_ne_nil slash front)
  rw [segments, List.splitOn_append_cons_self, segments, hfront]
  rfl

/-- Spellings of one path have the same first segment. -/
theorem Respells.head?_segments (h : Respells p q) : p.segments.head? = q.segments.head? := by
  refine h.map_eq (·.segments.head?) ?_
  intro p q hdrops
  cases hdrops with
  | repeated front rest => rw [head?_segments_append, head?_segments_append]
  | trailing hne => rw [head?_segments_append]
  | here front hrest => rw [head?_segments_append, head?_segments_append]

end ModuleGraph.Path
