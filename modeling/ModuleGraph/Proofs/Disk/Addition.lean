import ModuleGraph.Proofs.Disk.Linkless

/-!
# Putting a file where there was nothing

A file that is put into a tree, with the directories that are missing on the way, changes the tree
along its own path and nowhere else (`at?_of_set?_of_not_prefix`). On the path there are directories
afterwards, the old ones and those that were made (`exists_dir_of_set?`). So what there was is still
there (`Gains.keeps`), every file but the new one is where it was (`Gains.at?_file_iff`), and a file
reads as before (`Gains.toOption_readBytes_path_eq`).
-/

namespace ModuleGraph

namespace Entry

variable {new e e' : Entry} {place l : List FileName} {entries : List (FileName × Entry)}
  {name : FileName}

/-! ## Putting one entry into a directory -/

theorem mem_put {entry : FileName × Entry} (h : entry ∈ put name e entries) :
    entry = (name, e) ∨ entry ∈ entries := by
  unfold put at h
  split at h
  · obtain ⟨⟨n, old⟩, hmem, rfl⟩ := List.mem_map.1 h
    dsimp only
    split
    · next hn => exact Or.inl (hn ▸ rfl)
    · exact Or.inr hmem
  · rcases List.mem_append.1 h with hmem | hmem
    · exact Or.inr hmem
    · exact Or.inl (List.mem_singleton.1 hmem)

theorem nodup_names_put (h : (entries.map (·.1)).Nodup) :
    ((put name e entries).map (·.1)).Nodup := by
  unfold put
  split
  · have hnames : ∀ entry : FileName × Entry,
        (if entry.1 = name then (entry.1, e) else (entry.1, entry.2)).1 = entry.1 := by
      intro entry
      split <;> rfl
    rw [List.map_map]
    exact (List.map_congr_left fun entry _ => hnames entry) ▸ h
  · next hnone =>
    have hnew : name ∉ entries.map (·.1) := by
      intro hmem
      obtain ⟨entry, hentry, hname⟩ := List.mem_map.1 hmem
      exact hnone (List.lookup_isSome_iff.2 ⟨entry, hentry, beq_iff_eq.2 hname.symm⟩)
    rw [List.map_append, List.nodup_append]
    refine ⟨h, List.pairwise_singleton _ _, ?_⟩
    rintro n hn m hm rfl
    cases List.mem_singleton.1 hm
    exact hnew hn

theorem WellFormed.put (hwell : WellFormed (.dir entries)) (hname : name.IsProper)
    (he : e.WellFormed) : WellFormed (.dir (put name e entries)) := by
  cases hwell with
  | dir hnodup hproper hbelow =>
      refine .dir (nodup_names_put hnodup) ?_ ?_
      · intro n x hmem
        rcases mem_put hmem with heq | hold
        · cases heq
          exact hname
        · exact hproper n x hold
      · intro n x hmem
        rcases mem_put hmem with heq | hold
        · cases heq
          exact he
        · exact hbelow n x hold

/-! ## Setting an entry at a location -/

/-- The step of `set?`: what is under the first name, or a directory that is made, gets the entry.
-/
theorem set?_cons_eq_some_iff {rest : List FileName} :
    set? new e (name :: rest) = some e' ↔
      ∃ entries inner, e = .dir entries ∧
        set? new ((entries.lookup name).getD (.dir [])) rest = some inner ∧
        e' = .dir (Entry.put name inner entries) := by
  cases e with
  | file _ => simp [set?]
  | link _ => simp [set?]
  | dir entries =>
      rw [set?, Option.map_eq_some_iff]
      constructor
      · rintro ⟨inner, hinner, rfl⟩
        exact ⟨entries, inner, rfl, hinner, rfl⟩
      · rintro ⟨_, inner, heq, hinner, rfl⟩
        cases heq
        exact ⟨inner, hinner, rfl⟩

theorem wellFormed_dir_nil : WellFormed (.dir []) := by
  refine .dir List.Pairwise.nil ?_ ?_
  · exact fun _ _ hmem => absurd hmem List.not_mem_nil
  · exact fun _ _ hmem => absurd hmem List.not_mem_nil

theorem WellFormed.set? (hwell : e.WellFormed) (hnew : new.WellFormed)
    (hproper : ∀ name ∈ place, FileName.IsProper name) (h : set? new e place = some e') :
    e'.WellFormed := by
  induction place generalizing e e' with
  | nil =>
      cases h
      exact hnew
  | cons name rest ih =>
      obtain ⟨entries, inner, rfl, hinner, rfl⟩ := set?_cons_eq_some_iff.1 h
      obtain ⟨hname, hrest⟩ := List.forall_mem_cons.1 hproper
      refine hwell.put hname (ih ?_ hrest hinner)
      cases hlookup : entries.lookup name with
      | none => exact wellFormed_dir_nil
      | some old => exact (hwell.of_mem (hwell.lookup_eq_some_iff.1 hlookup)).1

theorem at?_dir_nil (hne : l ≠ []) : (Entry.dir []).at? l = none := by
  cases l with
  | nil => exact absurd rfl hne
  | cons _ _ => rfl

theorem at?_file_eq_none {content : List UInt8} (hne : l ≠ []) :
    (Entry.file content).at? l = none := by
  cases l with
  | nil => exact absurd rfl hne
  | cons _ _ => rfl

/-- A file that is set where nothing is below changes nothing off its path. -/
theorem at?_of_set?_of_not_prefix {content : List UInt8} (h : set? (.file content) e place = some e')
    (hbelow : ∀ more, more ≠ [] → e.at? (place ++ more) = none) (hl : ¬ l <+: place) :
    e'.at? l = e.at? l := by
  induction place generalizing e e' l with
  | nil =>
      cases h
      have hne : l ≠ [] := fun hnil => hl (hnil ▸ List.prefix_rfl)
      rw [at?_file_eq_none hne]
      exact (hbelow l hne).symm
  | cons name rest ih =>
      obtain ⟨entries, inner, rfl, hinner, rfl⟩ := set?_cons_eq_some_iff.1 h
      cases l with
      | nil => exact absurd (List.nil_prefix) hl
      | cons n l =>
          simp only [at?, lookup_put]
          split
          · next hn =>
            subst hn
            have hl' : ¬ l <+: rest := fun hpre => hl ((List.prefix_cons_inj n).2 hpre)
            -- below the name there was an entry, or a directory without entries was made
            cases hlookup : entries.lookup n with
            | none =>
                rw [hlookup, Option.getD_none] at hinner
                have hne : l ≠ [] := fun hnil => hl' (hnil ▸ List.nil_prefix)
                have hmade := ih hinner (fun more hmore =>
                  at?_dir_nil (List.append_ne_nil_of_right_ne_nil rest hmore)) hl'
                rw [Option.bind_some, hmade, at?_dir_nil hne]
                rfl
            | some old =>
                rw [hlookup, Option.getD_some] at hinner
                refine ih hinner (fun more hmore => ?_) hl'
                have hnone := hbelow more hmore
                rwa [List.cons_append, at?, hlookup, Option.bind_some] at hnone
          · rfl

/-- On the way to what is set there are directories, and there was nothing else before. -/
theorem exists_dir_of_set? (h : set? new e place = some e') (hl : l <+: place) (hne : l ≠ place) :
    (∃ entries', e'.at? l = some (.dir entries')) ∧
      (e.at? l = none ∨ ∃ entries, e.at? l = some (.dir entries)) := by
  induction place generalizing e e' l with
  | nil => exact absurd (List.prefix_nil.1 hl) hne
  | cons name rest ih =>
      obtain ⟨entries, inner, rfl, hinner, rfl⟩ := set?_cons_eq_some_iff.1 h
      cases l with
      | nil => exact ⟨⟨_, rfl⟩, Or.inr ⟨_, rfl⟩⟩
      | cons n l =>
          obtain ⟨rfl, hl'⟩ := List.cons_prefix_cons.1 hl
          have hne' : l ≠ rest := fun heq => hne (heq ▸ rfl)
          obtain ⟨hafter, hbefore⟩ := ih hinner hl' hne'
          refine ⟨?_, ?_⟩
          · simpa only [at?, lookup_put, if_true, Option.bind_some] using hafter
          · cases hlookup : entries.lookup n with
            | none =>
                refine Or.inl ?_
                rw [at?, hlookup]
                rfl
            | some old =>
                rw [hlookup, Option.getD_some] at hbefore
                simpa only [at?, hlookup, Option.bind_some] using hbefore

end Entry

namespace Disk

open Entry

/-- `disk'` is `disk` with a file of some content at `place`, where there was nothing. Directories
that were missing on the way are made. -/
structure Gains (disk disk' : Disk) (place : Location) (content : List UInt8) : Prop where
  proper : ∀ name ∈ place, FileName.IsProper name
  fresh : disk.root.at? place = none
  set : set? (.file content) disk.root place = some disk'.root
  rest : disk' = { disk with root := disk'.root }

namespace Gains

variable {disk disk' : Disk} {place l : Location} {content : List UInt8} {e : Entry}

theorem at?_place (h : disk.Gains disk' place content) :
    disk'.root.at? place = some (.file content) :=
  at?_of_set? h.set

theorem at?_eq (h : disk.Gains disk' place content) (hl : ¬ l <+: place) :
    disk'.root.at? l = disk.root.at? l := by
  refine at?_of_set?_of_not_prefix h.set (fun more _ => ?_) hl
  rw [at?_append, h.fresh]
  rfl

/-- At a location where there was something, there is something of the same kind. -/
theorem keeps (h : disk.Gains disk' place content) : Keeps disk.root disk'.root := by
  intro l e hat
  by_cases hl : l <+: place
  · have hne : l ≠ place := by
      rintro rfl
      rw [h.fresh] at hat
      cases hat
    obtain ⟨⟨entries', hat'⟩, hbefore⟩ := exists_dir_of_set? h.set hl hne
    rcases hbefore with hnone | ⟨entries, hdir⟩
    · rw [hnone] at hat
      cases hat
    · cases hdir.symm.trans hat
      exact ⟨_, hat', rfl⟩
  · exact ⟨e, (h.at?_eq hl).trans hat, rfl⟩

/-- Every other file is where it was. -/
theorem at?_file_iff (h : disk.Gains disk' place content) (hne : l ≠ place) {bytes : List UInt8} :
    disk'.root.at? l = some (.file bytes) ↔ disk.root.at? l = some (.file bytes) := by
  by_cases hl : l <+: place
  · obtain ⟨⟨entries', hat'⟩, hbefore⟩ := exists_dir_of_set? h.set hl hne
    rw [hat']
    rcases hbefore with hnone | ⟨entries, hdir⟩
    · rw [hnone]
      exact iff_of_false (fun heq => by cases heq) (fun heq => by cases heq)
    · rw [hdir]
      exact iff_of_false (fun heq => by cases heq) (fun heq => by cases heq)
  · rw [h.at?_eq hl]

theorem isLinkless (h : disk.Gains disk' place content) (hlinks : disk.root.IsLinkless) :
    disk'.root.IsLinkless := by
  intro l target hat
  by_cases hl : l <+: place
  · by_cases hne : l = place
    · rw [hne, h.at?_place] at hat
      cases hat
    · obtain ⟨⟨entries', hat'⟩, -⟩ := exists_dir_of_set? h.set hl hne
      cases hat'.symm.trans hat
  · rw [h.at?_eq hl] at hat
    exact hlinks l target hat

theorem wellFormed (h : disk.Gains disk' place content) (hwell : disk.root.WellFormed) :
    disk'.root.WellFormed :=
  hwell.set? .file h.proper h.set

/-! ## Paths and files -/

theorem working_eq (h : disk.Gains disk' place content) : disk'.working = disk.working := by
  rw [h.rest]

theorem unreadable_eq (h : disk.Gains disk' place content) :
    disk'.unreadable = disk.unreadable := by
  rw [h.rest]

theorem opened_eq (h : disk.Gains disk' place content) (l : Location) (bytes : List UInt8) :
    disk'.opened l bytes = disk.opened l bytes := by
  rw [opened, opened, h.unreadable_eq]

theorem locate_eq_ok (h : disk.Gains disk' place content) (hlinks : disk.root.IsLinkless)
    {p : Path} (hlocate : disk.locate false p = .ok l) : disk'.locate false p = .ok l := by
  rw [locate] at hlocate ⊢
  split at hlocate
  · cases hlocate
  · next hne =>
    rw [if_neg hne, h.working_eq]
    exact h.keeps.follow hlinks (h.isLinkless hlinks) hlocate

/-- At the path of any other location the same is read as before. -/
theorem toOption_readBytes_path_eq (h : disk.Gains disk' place content)
    (hwell : disk.root.WellFormed) (hlinks : disk.root.IsLinkless)
    (hproper : ∀ name ∈ l, FileName.IsProper name) (hnil : l ≠ []) (hne : l ≠ place) :
    (disk'.readBytes l.path).toOption = (disk.readBytes l.path).toOption := by
  rw [toOption_readBytes_path (h.wellFormed hwell) (h.isLinkless hlinks) hproper hnil,
    toOption_readBytes_path hwell hlinks hproper hnil]
  refine Option.ext fun bytes => ?_
  rw [content?_eq_some_iff, content?_eq_some_iff, h.at?_file_iff hne, h.unreadable_eq]

end Gains

end Disk

end ModuleGraph
