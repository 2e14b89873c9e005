import ModuleGraph.Build

/-!
# The files of a project

A list of paths may name one file more than once, under one spelling or several. A project keeps
each file under the first of its paths, in the order of the list. `FirstListed` says of a path
that it is the first of its file; the files of a project are these paths with their identifiers
(`mem_distinct_iff`), the identifiers are those of the list without their repetitions
(`ids_distinct`), and a prefix of the list gives a prefix of the files (`distinct_append`).

What has been seen is a set that grows along the list. The lemmas are over any such set, as the
recursion needs it, and a project starts with the empty one.
-/

namespace ModuleGraph

open Std (HashSet)

/-- `path` is listed, and no path before it is of the same file. -/
def FirstListed (paths : List Path) (path : Path) : Prop :=
  ∃ before after, paths = before ++ path :: after ∧
    FileId.ofPath path ∉ before.map FileId.ofPath

theorem firstListed_iff {paths : List Path} {path : Path} :
    FirstListed paths path ↔
      paths.find? (FileId.ofPath · == FileId.ofPath path) = some path := by
  rw [List.find?_eq_some_iff_append]
  constructor
  · rintro ⟨before, after, hpaths, hfirst⟩
    refine ⟨beq_self_eq_true _, before, after, hpaths, ?_⟩
    intro other hother
    have hne : FileId.ofPath other ≠ FileId.ofPath path := fun heq =>
      hfirst (heq ▸ List.mem_map_of_mem hother)
    simpa using hne
  · rintro ⟨-, before, after, hpaths, hbefore⟩
    refine ⟨before, after, hpaths, ?_⟩
    intro hmem
    obtain ⟨other, hother, heq⟩ := List.mem_map.1 hmem
    have := hbefore other hother
    rw [heq, beq_self_eq_true] at this
    cases this

/-- A file has one first path. -/
theorem FirstListed.unique {paths : List Path} {path path' : Path} (h : FirstListed paths path)
    (h' : FirstListed paths path') (heq : FileId.ofPath path = FileId.ofPath path') :
    path = path' := by
  have hfind := firstListed_iff.1 h
  rw [heq, firstListed_iff.1 h'] at hfind
  exact (Option.some.inj hfind).symm

/-- Where no two paths are of one file, each is the first of its file. -/
theorem firstListed_of_nodup {paths : List Path} {path : Path}
    (h : (paths.map FileId.ofPath).Nodup) (hmem : path ∈ paths) : FirstListed paths path := by
  obtain ⟨before, after, rfl⟩ := List.append_of_mem hmem
  refine ⟨before, after, rfl, ?_⟩
  rw [List.map_append, List.map_cons] at h
  exact fun hin => (List.nodup_append.1 h).2.2 _ hin _ List.mem_cons_self rfl

namespace Project

theorem distinct_of_seen {seen : HashSet FileId} {path : Path} (rest : List Path)
    (h : FileId.ofPath path ∈ seen) : distinct seen (path :: rest) = distinct seen rest := by
  simp only [distinct, HashSet.contains_iff_mem, if_pos h]

theorem distinct_of_new {seen : HashSet FileId} {path : Path} (rest : List Path)
    (h : FileId.ofPath path ∉ seen) : distinct seen (path :: rest) =
      (path, FileId.ofPath path) :: distinct (seen.insert (FileId.ofPath path)) rest := by
  simp only [distinct, HashSet.contains_iff_mem, if_neg h]

/-- Only what is in the set matters, not how it came there. -/
theorem distinct_congr {seen seen' : HashSet FileId} (h : ∀ id, id ∈ seen ↔ id ∈ seen')
    (paths : List Path) : distinct seen paths = distinct seen' paths := by
  induction paths generalizing seen seen' with
  | nil => rfl
  | cons path rest ih =>
      by_cases hs : FileId.ofPath path ∈ seen
      · rw [distinct_of_seen rest hs, distinct_of_seen rest ((h _).1 hs)]
        exact ih h
      · rw [distinct_of_new rest hs, distinct_of_new rest (mt (h _).2 hs)]
        refine congrArg _ (ih ?_)
        intro id
        rw [HashSet.mem_insert, HashSet.mem_insert, h]

theorem distinct_append (seen : HashSet FileId) (front rest : List Path) :
    distinct seen (front ++ rest) =
      distinct seen front ++ distinct (seen.insertMany (front.map FileId.ofPath)) rest := by
  induction front generalizing seen with
  | nil => rw [List.map_nil, HashSet.insertMany_nil]; rfl
  | cons path front ih =>
      rw [List.cons_append, List.map_cons, HashSet.insertMany_cons]
      by_cases hs : FileId.ofPath path ∈ seen
      · rw [distinct_of_seen _ hs, distinct_of_seen _ hs, ih]
        refine congrArg _ (distinct_congr ?_ rest)
        -- the identifier is in the set already, so entering it once more changes nothing
        intro id
        rw [HashSet.mem_insertMany_list, HashSet.mem_insertMany_list, HashSet.mem_insert]
        constructor
        · exact Or.imp_left Or.inr
        · rintro ((hid | hid) | hid)
          · exact Or.inl (eq_of_beq hid ▸ hs)
          · exact Or.inl hid
          · exact Or.inr hid
      · rw [distinct_of_new _ hs, distinct_of_new _ hs, ih, List.cons_append]

/-- Where a file of the project stands in the list. -/
theorem distinct_eq_append {seen : HashSet FileId} {paths : List Path}
    {front rest : List (Path × FileId)} {file : Path × FileId}
    (h : distinct seen paths = front ++ file :: rest) :
    ∃ before after, paths = before ++ file.1 :: after ∧ FileId.ofPath file.1 = file.2 ∧
      file.2 ∉ seen ∧ file.2 ∉ before.map FileId.ofPath ∧ distinct seen before = front := by
  induction paths generalizing seen front with
  | nil => cases front <;> cases h
  | cons path paths ih =>
      by_cases hs : FileId.ofPath path ∈ seen
      · rw [distinct_of_seen _ hs] at h
        obtain ⟨before, after, rfl, hid, hnew, hfirst, hfront⟩ := ih h
        refine ⟨path :: before, after, rfl, hid, hnew, ?_, ?_⟩
        · rw [List.map_cons, List.mem_cons, not_or]
          exact ⟨fun heq => hnew (heq ▸ hs), hfirst⟩
        · rw [distinct_of_seen _ hs, hfront]
      · rw [distinct_of_new _ hs] at h
        cases front with
        | nil =>
            cases h
            exact ⟨[], paths, rfl, rfl, hs, List.not_mem_nil, rfl⟩
        | cons first front =>
            obtain ⟨rfl, htail⟩ := List.cons.inj h
            obtain ⟨before, after, rfl, hid, hnew, hfirst, hfront⟩ := ih htail
            rw [HashSet.mem_insert, not_or] at hnew
            refine ⟨path :: before, after, rfl, hid, hnew.2, ?_, ?_⟩
            · rw [List.map_cons, List.mem_cons, not_or]
              exact ⟨fun heq => hnew.1 (beq_iff_eq.2 heq.symm), hfirst⟩
            · rw [distinct_of_new _ hs, hfront]

/-! ## From the empty set -/

theorem mem_insertMany_empty {id : FileId} {ids : List FileId} :
    id ∈ (∅ : HashSet FileId).insertMany ids ↔ id ∈ ids := by
  simp [HashSet.mem_insertMany_list]

/-- A path that is the first of its file adds the file. -/
theorem distinct_of_first {before : List Path} {path : Path} (after : List Path)
    (h : FileId.ofPath path ∉ before.map FileId.ofPath) :
    ∃ rest, distinct ∅ (before ++ path :: after) =
      distinct ∅ before ++ (path, FileId.ofPath path) :: rest := by
  rw [distinct_append, distinct_of_new _ (mt mem_insertMany_empty.1 h)]
  exact ⟨_, rfl⟩

/-- A path whose file was listed before adds nothing. -/
theorem distinct_of_repeated {before : List Path} {path : Path} (after : List Path)
    (h : FileId.ofPath path ∈ before.map FileId.ofPath) :
    distinct ∅ (before ++ path :: after) = distinct ∅ (before ++ after) := by
  rw [distinct_append, distinct_append, distinct_of_seen _ (mem_insertMany_empty.2 h)]

/-- The files of a project are the paths that are the first of their file. -/
theorem mem_distinct_iff {paths : List Path} {path : Path} {id : FileId} :
    (path, id) ∈ distinct ∅ paths ↔ FirstListed paths path ∧ FileId.ofPath path = id := by
  constructor
  · intro h
    obtain ⟨front, rest, hsplit⟩ := List.append_of_mem h
    obtain ⟨before, after, hpaths, hid, -, hfirst, -⟩ := distinct_eq_append hsplit
    exact ⟨⟨before, after, hpaths, hid ▸ hfirst⟩, hid⟩
  · rintro ⟨⟨before, after, rfl, hfirst⟩, rfl⟩
    obtain ⟨rest, hsplit⟩ := distinct_of_first after hfirst
    rw [hsplit]
    exact List.mem_append_right _ List.mem_cons_self

theorem ids_distinct_of_seen (seen : HashSet FileId) (paths : List Path) :
    (distinct seen paths).map (·.2) =
      ((paths.map FileId.ofPath).filter (!seen.contains ·)).eraseDups := by
  induction paths generalizing seen with
  | nil => rfl
  | cons path paths ih =>
      by_cases hs : FileId.ofPath path ∈ seen
      · rw [distinct_of_seen _ hs, ih, List.map_cons, List.filter_cons_of_neg]
        simpa using hs
      · rw [distinct_of_new _ hs, List.map_cons, ih, List.map_cons, List.filter_cons_of_pos,
          List.eraseDups_cons, List.filter_filter]
        · refine congrArg (FileId.ofPath path :: List.eraseDups ·) (List.filter_congr ?_)
          intro id _
          rw [HashSet.contains_insert, Bool.not_or, BEq.comm]
        · simpa using hs

theorem nodup_ids_distinct (seen : HashSet FileId) (paths : List Path) :
    ((distinct seen paths).map (·.2)).Nodup := by
  induction paths generalizing seen with
  | nil => exact List.nodup_nil
  | cons path paths ih =>
      by_cases hs : FileId.ofPath path ∈ seen
      · rw [distinct_of_seen _ hs]
        exact ih seen
      · rw [distinct_of_new _ hs, List.map_cons, List.nodup_cons]
        refine ⟨?_, ih _⟩
        rw [ids_distinct_of_seen, List.mem_eraseDups, List.mem_filter]
        simp

/-- The identifiers of a project are those of the list, each where it first occurs. -/
theorem ids_distinct (paths : List Path) :
    (distinct ∅ paths).map (·.2) = (paths.map FileId.ofPath).eraseDups := by
  rw [ids_distinct_of_seen]
  refine congrArg _ (List.filter_eq_self.2 ?_)
  intro id _
  rw [HashSet.contains_empty]
  rfl

theorem length_distinct_le (seen : HashSet FileId) (paths : List Path) :
    (distinct seen paths).length ≤ paths.length := by
  induction paths generalizing seen with
  | nil => exact Nat.le_refl 0
  | cons path paths ih =>
      by_cases hs : FileId.ofPath path ∈ seen
      · rw [distinct_of_seen _ hs]
        exact Nat.le_succ_of_le (ih seen)
      · rw [distinct_of_new _ hs]
        exact Nat.succ_le_succ (ih _)

/-- What comes after a list sees only the files of the list. -/
theorem distinct_append_congr {paths paths' : List Path} (h : distinct ∅ paths = distinct ∅ paths')
    (rest : List Path) : distinct ∅ (paths ++ rest) = distinct ∅ (paths' ++ rest) := by
  have hids : ∀ id, id ∈ paths.map FileId.ofPath ↔ id ∈ paths'.map FileId.ofPath := by
    intro id
    rw [← List.mem_eraseDups, ← ids_distinct, h, ids_distinct, List.mem_eraseDups]
  rw [distinct_append, distinct_append, h]
  refine congrArg _ (distinct_congr ?_ rest)
  intro id
  rw [mem_insertMany_empty, mem_insertMany_empty, hids]

theorem distinct_eq_nil_iff {paths : List Path} : distinct ∅ paths = [] ↔ paths = [] := by
  cases paths with
  | nil => exact iff_of_true rfl rfl
  | cons path paths =>
      rw [distinct_of_new _ HashSet.not_mem_empty]
      exact iff_of_false (List.cons_ne_nil _ _) (List.cons_ne_nil _ _)

end Project

end ModuleGraph
