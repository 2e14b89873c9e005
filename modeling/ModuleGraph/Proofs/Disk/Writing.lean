import ModuleGraph.Proofs.Disk.Addition
import ModuleGraph.Proofs.Path.Segments
import ModuleGraph.Proofs.Text.Encoding

/-!
# Writing a file

A path on which the last name may be missing is followed to a place that can hold a file: a link on
the way is replaced by its target, so no link is there, and the directory that is to hold the file
exists (`Follows.landing`). Nothing else is made, then, when a file is written there: the tree is as
before at every other location, and has the file at the place (`PutsFile`). Nor does the file stand
in the way of the path, which afterwards leads to it (`PutsFile.follows`), so that what is written
is read back, where files may be read (`write_eq_ok`).

Paths are followed through links here, so the induction is not on the steps, which a link replaces,
but on how they lead where they do. `Follows` says it, with one constructor for each way of taking
a step.
-/

namespace ModuleGraph

namespace Entry

/-- An entry by itself, without what a directory holds. -/
def surface : Entry → Entry
  | .dir _ => .dir []
  | e => e

theorem surface_eq_dir_iff {e : Entry} : e.surface = .dir [] ↔ ∃ entries, e = .dir entries := by
  cases e with
  | file _ => simp [surface]
  | link _ => simp [surface]
  | dir entries => simp [surface]

theorem surface_eq_link_iff {e : Entry} {target : Path} :
    e.surface = .link target ↔ e = .link target := by
  cases e with
  | file _ => simp [surface]
  | link _ => simp [surface]
  | dir _ => simp [surface]

end Entry

namespace Disk

open Entry

variable {tree tree' : Entry} {making : Bool} {budget : Nat} {place found : Location}
  {todo rest : List Step}

/-! ## How a path leads somewhere -/

/-- The steps lead from `place` to `found`. -/
inductive Follows (tree : Entry) (making : Bool) : Nat → Location → List Step → Location → Prop
  | done {budget : Nat} {place : Location} : Follows tree making budget place [] place
  | root {budget : Nat} {place found : Location} {rest : List Step} :
      Follows tree making budget [] rest found →
      Follows tree making budget place (.root :: rest) found
  /-- The last name is missing. -/
  | made {budget : Nat} {place : Location} {name : FileName} {entries : List (FileName × Entry)} :
      making = true → tree.at? place = some (.dir entries) → entries.lookup name = none →
      Follows tree making budget place [.name name] (place ++ [name])
  | link {budget : Nat} {place found : Location} {name : FileName} {rest : List Step}
      {entries : List (FileName × Entry)} {target : Path} :
      tree.at? place = some (.dir entries) → entries.lookup name = some (.link target) →
      ¬ (making = true ∧ rest = [.close]) →
      Follows tree making budget place (steps target ++ rest) found →
      Follows tree making (budget + 1) place (.name name :: rest) found
  | name {budget : Nat} {place found : Location} {name : FileName} {rest : List Step}
      {entries : List (FileName × Entry)} {e : Entry} :
      tree.at? place = some (.dir entries) → entries.lookup name = some e →
      (∀ target, e ≠ .link target) → ¬ (making = true ∧ rest = [.close]) →
      Follows tree making budget (place ++ [name]) rest found →
      Follows tree making budget place (.name name :: rest) found
  | up {budget : Nat} {place found : Location} {rest : List Step}
      {entries : List (FileName × Entry)} : tree.at? place = some (.dir entries) →
      Follows tree making budget place.dropLast rest found →
      Follows tree making budget place (.up :: rest) found
  | stay {budget : Nat} {place found : Location} {step : Step} {rest : List Step}
      {entries : List (FileName × Entry)} : step = .here ∨ step = .close →
      tree.at? place = some (.dir entries) → Follows tree making budget place rest found →
      Follows tree making budget place (step :: rest) found

theorem follows_of_follow (h : follow tree making budget place todo = .ok found) :
    Follows tree making budget place todo found := by
  fun_induction follow tree making budget place todo with
  | case1 budget place =>
      cases h
      exact .done
  | case2 budget place rest ih => exact .root (ih h)
  | case3 => cases h
  | case4 budget place rest entries hdir name _ hlookup hmake =>
      obtain ⟨hmaking, rfl⟩ := hmake
      cases h
      exact .made hmaking hdir hlookup
  | case5 => cases h
  | case6 => cases h
  | case7 place rest entries hdir name hclose target hlookup budget _ ih =>
      exact .link hdir hlookup hclose (ih h)
  | case8 budget place rest entries hdir name hclose e hlink hlookup _ ih =>
      exact .name hdir hlookup hlink hclose (ih h)
  | case9 budget place rest entries hdir _ ih => exact .up hdir (ih h)
  | case10 budget place step rest hroot entries hdir hname hup ih =>
      refine .stay ?_ hdir (ih h)
      cases step with
      | root => exact absurd rfl hroot
      | here => exact Or.inl rfl
      | up => exact absurd rfl hup
      | name n => exact absurd rfl (hname n)
      | close => exact Or.inr rfl
  | case11 => cases h

theorem Follows.follow (h : Follows tree making budget place todo found) :
    Disk.follow tree making budget place todo = .ok found := by
  induction h with
  | done => rw [Disk.follow]
  | root _ ih =>
      rw [Disk.follow]
      exact ih
  | made hmaking hdir hlookup =>
      simp only [Disk.follow, hdir, hlookup, hmaking]
      rfl
  | link hdir hlookup hclose _ ih =>
      simp only [Disk.follow, hdir, if_neg hclose, hlookup]
      exact ih
  | @name _ _ _ _ _ _ e hdir hlookup hlink hclose _ ih =>
      simp only [Disk.follow, hdir, if_neg hclose, hlookup]
      cases e with
      | link target => exact absurd rfl (hlink target)
      | file _ | dir _ => exact ih
  | up hdir _ ih =>
      simp only [Disk.follow, hdir]
      exact ih
  | stay hstep hdir _ ih =>
      rcases hstep with rfl | rfl
      · simp only [Disk.follow, hdir]
        exact ih
      · simp only [Disk.follow, hdir]
        exact ih

/-! ## Where a path ends that leads through links -/

/-- There is no link at the place, and the directory that may hold something there exists. -/
def Landing (tree : Entry) (found : Location) : Prop :=
  found = [] ∨ ∃ parent name entries, found = parent ++ [name] ∧
    tree.at? parent = some (.dir entries) ∧ ∀ target, entries.lookup name ≠ some (.link target)

theorem landing_of_dir {entries : List (FileName × Entry)}
    (h : tree.at? place = some (.dir entries)) : Landing tree place := by
  rcases List.eq_nil_or_concat place with hnil | ⟨parent, name, hplace⟩
  · exact Or.inl hnil
  · rw [hplace, List.concat_eq_append] at h
    obtain ⟨siblings, hparent, hlookup⟩ := at?_concat_eq_some_iff.1 h
    refine Or.inr ⟨parent, name, siblings, ?_, hparent, ?_⟩
    · rw [hplace, List.concat_eq_append]
    · intro target hlink
      cases hlookup.symm.trans hlink

theorem landing_dropLast {entries : List (FileName × Entry)}
    (h : tree.at? place = some (.dir entries)) : Landing tree place.dropLast := by
  rcases List.eq_nil_or_concat place with rfl | ⟨parent, name, rfl⟩
  · exact Or.inl rfl
  · rw [List.concat_eq_append] at h ⊢
    obtain ⟨siblings, hparent, -⟩ := at?_concat_eq_some_iff.1 h
    rw [List.dropLast_concat]
    exact landing_of_dir hparent

/-- The condition on the start matters only if there is no step. -/
theorem Follows.landing (h : Follows tree making budget place todo found)
    (hstart : todo = [] → Landing tree place) : Landing tree found := by
  induction h with
  | done => exact hstart rfl
  | root _ ih => exact ih fun _ => Or.inl rfl
  | @made _ place name entries _ hdir hlookup =>
      refine Or.inr ⟨place, name, entries, rfl, hdir, fun target hlink => ?_⟩
      cases hlookup.symm.trans hlink
  | link hdir _ _ _ ih => exact ih fun _ => landing_of_dir hdir
  | @name _ place _ name _ entries e hdir hlookup hlink _ _ ih =>
      refine ih fun _ => Or.inr ⟨place, name, entries, rfl, hdir, fun target htarget => ?_⟩
      exact hlink target (Option.some.inj (hlookup.symm.trans htarget))
  | up hdir _ ih => exact ih fun _ => landing_dropLast hdir
  | stay _ hdir _ ih => exact ih fun _ => landing_of_dir hdir

theorem Landing.ne_link {entries : List (FileName × Entry)} {name : FileName} {target : Path}
    (h : Landing tree (place ++ [name])) (hdir : tree.at? place = some (.dir entries)) :
    entries.lookup name ≠ some (.link target) := by
  rcases h with hnil | ⟨parent, name', entries', heq, hparent, hlink⟩
  · exact absurd hnil (List.append_ne_nil_of_right_ne_nil _ (List.cons_ne_nil _ _))
  · obtain ⟨rfl, hname⟩ := List.append_inj' heq rfl
    cases hname
    cases hdir.symm.trans hparent
    exact hlink target

/-! ## Putting a file at such a place -/

/-- `tree'` is `tree` with a file of some content at `found`. -/
structure PutsFile (tree tree' : Entry) (found : Location) (content : List UInt8) : Prop where
  written : tree'.at? found = some (.file content)
  elsewhere : ∀ l, l ≠ found → (tree'.at? l).map surface = (tree.at? l).map surface

variable {content : List UInt8}

/-- Where there is no directory, there is nothing below. -/
theorem at?_append_eq_none (h : ∀ entries, tree.at? place ≠ some (.dir entries))
    {more : Location} (hne : more ≠ []) : tree.at? (place ++ more) = none := by
  rw [at?_append]
  cases hat : tree.at? place with
  | none => rfl
  | some e => cases e with
    | dir entries => exact absurd hat (h entries)
    | file _ | link _ => cases more with
      | nil => exact absurd rfl hne
      | cons _ _ => rfl

theorem Landing.at?_ne_none (h : Landing tree found) {l : Location} (hl : l <+: found)
    (hne : l ≠ found) : tree.at? l ≠ none := by
  rcases h with rfl | ⟨parent, name, entries, rfl, hparent, -⟩
  · exact absurd (List.prefix_nil.1 hl) hne
  · rcases List.prefix_concat_iff.1 hl with heq | ⟨more, rfl⟩
    · exact absurd heq hne
    · intro hnone
      rw [at?_append, hnone] at hparent
      cases hparent

theorem Landing.putsFile (h : Landing tree found)
    (hdir : ∀ entries, tree.at? found ≠ some (.dir entries))
    (hset : set? (.file content) tree found = some tree') : PutsFile tree tree' found content := by
  refine ⟨at?_of_set? hset, fun l hne => ?_⟩
  by_cases hl : l <+: found
  · obtain ⟨⟨entries', hafter⟩, hnone | ⟨entries, hbefore⟩⟩ := exists_dir_of_set? hset hl hne
    · exact absurd hnone (h.at?_ne_none hl hne)
    · rw [hafter, hbefore]
      rfl
  · have hnone : ∀ more, more ≠ [] → tree.at? (found ++ more) = none :=
      fun _ hmore => at?_append_eq_none hdir hmore
    have hsame := at?_of_set?_of_not_prefix hset hnone hl
    rw [hsame]

namespace PutsFile

theorem exists_dir (h : PutsFile tree tree' found content) {entries : List (FileName × Entry)}
    (hdir : tree.at? place = some (.dir entries)) (hne : place ≠ found) :
    ∃ entries', tree'.at? place = some (.dir entries') := by
  have hsurface := h.elsewhere place hne
  rw [hdir] at hsurface
  obtain ⟨e, hat, he⟩ := Option.map_eq_some_iff.1 hsurface
  obtain ⟨entries', rfl⟩ := surface_eq_dir_iff.1 he
  exact ⟨entries', hat⟩

/-- The path still leads where it did, though now there is a file and nothing is to be made. -/
theorem follows (h : PutsFile tree tree' found content)
    (hnot : ∀ entries, tree.at? found ≠ some (.dir entries))
    (hfollows : Follows tree true budget place todo found) :
    Follows tree' false budget place todo found := by
  have hne : ∀ {place : Location} {entries : List (FileName × Entry)},
      tree.at? place = some (.dir entries) → place ≠ found := by
    rintro place entries hdir rfl
    exact hnot entries hdir
  have hopen : ∀ {rest : List Step}, ¬ (false = true ∧ rest = [.close]) := by simp
  induction hfollows with
  | done => exact .done
  | root _ ih => exact .root (ih h hnot hne)
  | @made _ place name entries _ hdir _ =>
      obtain ⟨entries', hdir', hlookup⟩ := at?_concat_eq_some_iff.1 h.written
      exact .name hdir' hlookup (fun _ hlink => by cases hlink) hopen .done
  | @link _ place found name rest entries target hdir hlookup _ hrest ih =>
      have hlanding := hrest.landing fun _ => landing_of_dir hdir
      have hother : place ++ [name] ≠ found := by
        rintro rfl
        exact hlanding.ne_link hdir hlookup
      have hsurface := h.elsewhere _ hother
      rw [at?_concat_eq_some_iff.2 ⟨entries, hdir, hlookup⟩] at hsurface
      obtain ⟨e, hat, he⟩ := Option.map_eq_some_iff.1 hsurface
      rw [surface_eq_link_iff.1 he] at hat
      obtain ⟨entries', hdir', hlookup'⟩ := at?_concat_eq_some_iff.1 hat
      exact .link hdir' hlookup' hopen (ih h hnot hne)
  | @name _ place found name rest entries e hdir hlookup hlink _ _ ih =>
      obtain ⟨e', hat, hlink'⟩ : ∃ e', tree'.at? (place ++ [name]) = some e' ∧
          ∀ target, e' ≠ .link target := by
        by_cases hother : place ++ [name] = found
        · exact ⟨_, hother ▸ h.written, fun _ heq => by cases heq⟩
        · have hsurface := h.elsewhere _ hother
          rw [at?_concat_eq_some_iff.2 ⟨entries, hdir, hlookup⟩] at hsurface
          obtain ⟨e', hat, he⟩ := Option.map_eq_some_iff.1 hsurface
          refine ⟨e', hat, ?_⟩
          rintro target rfl
          exact hlink target (surface_eq_link_iff.1 he.symm)
      obtain ⟨entries', hdir', hlookup'⟩ := at?_concat_eq_some_iff.1 hat
      exact .name hdir' hlookup' hlink' hopen (ih h hnot hne)
  | up hdir _ ih =>
      obtain ⟨entries', hdir'⟩ := h.exists_dir hdir (hne hdir)
      exact .up hdir' (ih h hnot hne)
  | stay hstep hdir _ ih =>
      obtain ⟨entries', hdir'⟩ := h.exists_dir hdir (hne hdir)
      exact .stay hstep hdir' (ih h hnot hne)

end PutsFile

/-! ## Writing at a path -/

theorem Step.ofSegment?_eq_none_iff {segment : List UInt8} :
    Step.ofSegment? segment = none ↔ segment = [] := by
  rw [Step.ofSegment?]
  split
  · next h => exact iff_of_true rfl h
  · next h =>
    refine iff_of_false ?_ h
    split
    · exact Option.some_ne_none _
    · split <;> exact Option.some_ne_none _

/-- A path that is not empty has a step: it starts with a slash, or with a segment. -/
theorem steps_ne_nil {p : Path} (h : p.bytes ≠ []) : steps p ≠ [] := by
  intro hnil
  obtain ⟨hfront, -⟩ := List.append_eq_nil_iff.1 hnil
  obtain ⟨hroot, hnames⟩ := List.append_eq_nil_iff.1 hfront
  have hempty : ∀ segment ∈ p.bytes.splitOn Path.slash, segment = [] := fun segment hsegment =>
    Step.ofSegment?_eq_none_iff.1 (List.filterMap_eq_nil_iff.1 hnames segment hsegment)
  obtain ⟨bytes⟩ := p
  dsimp only at h hempty
  induction bytes using splitOn_induct with
  | last segment _ => exact h (hempty segment List.mem_cons_self)
  | next segment rest _ _ =>
      cases hempty segment List.mem_cons_self
      cases hroot

variable {disk disk' : Disk} {p : Path} {text : String}

theorem locate_eq_ok_iff : disk.locate making p = .ok found ↔
    p.bytes ≠ [] ∧ Follows disk.root making linkBudget disk.working (steps p) found := by
  rw [locate]
  split
  · next h => exact iff_of_false (fun heq => by cases heq) fun hp => hp.1 h
  · next h => exact ⟨fun heq => ⟨h, follows_of_follow heq⟩, fun hp => hp.2.follow⟩

theorem landing_of_locate (h : disk.locate making p = .ok found) : Landing disk.root found := by
  obtain ⟨hne, hfollows⟩ := locate_eq_ok_iff.1 h
  exact hfollows.landing fun hnil => absurd hnil (steps_ne_nil hne)

theorem readBytes_of_locate (h : disk.locate false p = .ok found)
    (hat : disk.root.at? found = some (.file content)) :
    disk.readBytes p = disk.opened found content := by
  rw [readBytes, h]
  simp only [bind, Except.bind, hat]

theorem write_steps (h : disk.write p text = .ok disk') : ∃ place,
    disk.locate true p = .ok place ∧ (∀ entries, disk.root.at? place ≠ some (.dir entries)) ∧
      set? (.file (Text.Utf8.encode text)) disk.root place = some disk'.root ∧
      disk' = { disk with root := disk'.root } := by
  rw [write] at h
  cases hlocate : disk.locate true p with
  | error cause =>
      rw [hlocate] at h
      cases h
  | ok place =>
      simp only [hlocate, bind, Except.bind] at h
      split at h
      · cases h
      · next hdir =>
        split at h
        · cases h
        · split at h
          · next root hset =>
            cases h
            exact ⟨place, rfl, hdir, hset, rfl⟩
          · cases h

/-- What writing does: the path denotes one place, where the tree afterwards has a file with the
text; at every other location it is as before, and nothing but the tree has changed. The path leads
to that file, so the text is read there if files may be read there. -/
theorem write_eq_ok (h : disk.write p text = .ok disk') : ∃ place,
    disk.locate true p = .ok place ∧
      PutsFile disk.root disk'.root place (Text.Utf8.encode text) ∧
      disk' = { disk with root := disk'.root } ∧
      (disk.unreadable place = none → disk'.read p = .ok text) := by
  obtain ⟨place, hlocate, hdir, hset, hrest⟩ := write_steps h
  have hworking : disk'.working = disk.working := by rw [hrest]
  have hrefused : disk'.unreadable = disk.unreadable := by rw [hrest]
  have hputs := (landing_of_locate hlocate).putsFile hdir hset
  obtain ⟨hne, hfollows⟩ := locate_eq_ok_iff.1 hlocate
  have hagain : disk'.locate false p = .ok place :=
    locate_eq_ok_iff.2 ⟨hne, hworking ▸ hputs.follows hdir hfollows⟩
  refine ⟨place, hlocate, hputs, hrest, fun hreadable => ?_⟩
  rw [read, readBytes_of_locate hagain hputs.written, opened, hrefused, hreadable]
  simp only [bind, Except.bind, Text.Utf8.decode?_encode]

end Disk

end ModuleGraph
