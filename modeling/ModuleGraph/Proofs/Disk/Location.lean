import ModuleGraph.Proofs.Path.Location

/-!
# The path of a location

A location passes through no link, so there is nothing to replace on its own path: the path leads to
the location (`locate_path`), and the file that is opened there is the one that the location holds
(`readBytes_path`).
-/

namespace ModuleGraph

open ModuleGraph.Path

namespace Location

variable {place : Location}

theorem exists_getLast?_intercalate (h : ∀ name ∈ place, FileName.IsProper name)
    (hne : place ≠ []) :
    ∃ last, (List.intercalate [slash] place).getLast? = some last ∧ last ≠ slash := by
  induction place with
  | nil => exact absurd rfl hne
  | cons name rest ih =>
      obtain ⟨hname, hrest⟩ := List.forall_mem_cons.1 h
      cases rest with
      | nil =>
          rw [List.intercalate_singleton, List.getLast?_eq_some_getLast hname.ne_nil]
          refine ⟨_, rfl, fun heq => hname.no_slash ?_⟩
          exact heq ▸ List.getLast_mem hname.ne_nil
      | cons next rest =>
          obtain ⟨last, hlast, hslash⟩ := ih hrest (List.cons_ne_nil _ _)
          refine ⟨last, ?_, hslash⟩
          rw [List.intercalate_cons_cons, List.getLast?_append, hlast, Option.some_or]

theorem steps_path (h : ∀ name ∈ place, FileName.IsProper name) (hne : place ≠ []) :
    Disk.steps place.path = .root :: place.map .name := by
  have hnames : place.filterMap Disk.Step.ofSegment? = place.map .name := by
    refine List.filterMap_eq_map_iff_forall_eq_some.2 fun name hname => ?_
    have hproper := h name hname
    rw [Disk.Step.ofSegment?, if_neg hproper.ne_nil, if_neg hproper.ne_dot, if_neg hproper.ne_dots]
  have hroot : place.path.isAbsolute = true := rfl
  have hclose : place.path.bytes.getLast? ≠ some slash := by
    obtain ⟨last, hlast, hslash⟩ := exists_getLast?_intercalate h hne
    rw [path, List.getLast?_cons, hlast]
    exact fun heq => hslash (Option.some.inj heq)
  rw [Disk.steps, if_pos hroot, if_neg hclose, segments_path h hne, List.append_nil,
    List.filterMap_cons, hnames]
  rfl

end Location

namespace Disk

variable {tree e : Entry} {place names : Location}

/-- Names that lead to an entry other than a link are followed one by one. -/
theorem follow_names {making : Bool} {budget : Nat} (hat : tree.at? (place ++ names) = some e)
    (hlink : ∀ target, e ≠ .link target) :
    follow tree making budget place (names.map .name) = .ok (place ++ names) := by
  induction names generalizing place with
  | nil => rw [List.map_nil, follow, List.append_nil]
  | cons name rest ih =>
      have hrest : tree.at? (place ++ [name] ++ rest) = some e := by
        rw [List.append_assoc, List.singleton_append, hat]
      have hnext := ih hrest
      rw [List.append_assoc, List.singleton_append] at hnext
      rw [Entry.at?_append, Option.bind_eq_some_iff] at hat
      obtain ⟨here, hhere, hbelow⟩ := hat
      cases here with
      | file _ => cases hbelow
      | link _ => cases hbelow
      | dir entries =>
          obtain ⟨inner, hlookup, hinner⟩ := Option.bind_eq_some_iff.1 hbelow
          have hnot : ¬ (making = true ∧ rest.map Step.name = [.close]) := by
            rintro ⟨-, hclose⟩
            obtain ⟨_, _, hstep⟩ := List.map_eq_singleton_iff.1 hclose
            cases hstep
          simp only [List.map_cons, follow, hhere, if_neg hnot, hlookup]
          cases inner with
          | file _ | dir _ => exact hnext
          | link target => cases rest with
            | nil =>
                cases hinner
                exact absurd rfl (hlink target)
            | cons _ _ => cases hinner

variable {disk : Disk}

/-- The path of a location below the root leads to it. -/
theorem locate_path (hwell : disk.root.WellFormed) (hat : disk.root.at? place = some e)
    (hne : place ≠ []) (hlink : ∀ target, e ≠ .link target) (making : Bool) :
    disk.locate making place.path = .ok place := by
  have hbytes : place.path.bytes ≠ [] := List.cons_ne_nil _ _
  rw [locate, if_neg hbytes, Location.steps_path (hwell.at? hat).2 hne, follow]
  exact follow_names hat hlink

theorem locate_path_of_dir {entries : List (FileName × Entry)} (hwell : disk.root.WellFormed)
    (hat : disk.root.at? place = some (.dir entries)) (hne : place ≠ []) (making : Bool) :
    disk.locate making place.path = .ok place :=
  locate_path hwell hat hne (fun _ h => Entry.noConfusion h) making

theorem opened_eq_ok_iff {content bytes : List UInt8} :
    disk.opened place content = .ok bytes ↔ disk.unreadable place = none ∧ content = bytes := by
  rw [opened]
  cases disk.unreadable place with
  | none => simp
  | some cause => simp

/-- A file is opened at the path of its location. -/
theorem readBytes_path {content : List UInt8} (hwell : disk.root.WellFormed)
    (hat : disk.root.at? place = some (.file content)) (hne : place ≠ []) :
    disk.readBytes place.path = disk.opened place content := by
  have hlocate := locate_path hwell hat hne (fun _ h => by cases h) false
  rw [readBytes, hlocate]
  simp only [bind, Except.bind, hat]

end Disk

end ModuleGraph
