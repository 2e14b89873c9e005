import ModuleGraph.Proofs.Disk.Tree

/-!
# Directories that list in another order

Two trees are `Reordered` if they hold the same and their directories list it in different orders.
Then a location leads to the same in both but for such an order (`Reordered.at?`), so a path is
followed to the same location (`follow_eq`), and a file reads the same (`readBytes_eq`). This needs
directories that hold each name once: of two entries under one name the first would count.
-/

namespace ModuleGraph

namespace Entry

/-- The trees differ only in the order in which directories list their entries. -/
inductive Reordered : Entry → Entry → Prop
  | file {content : List UInt8} : Reordered (.file content) (.file content)
  | link {target : Path} : Reordered (.link target) (.link target)
  | dir {entries entries' : List (FileName × Entry)} :
      (entries.map (·.1)).Perm (entries'.map (·.1)) →
      (∀ name e e', (name, e) ∈ entries → (name, e') ∈ entries' → Reordered e e') →
      Reordered (.dir entries) (.dir entries')

namespace Reordered

variable {e e' : Entry} {entries entries' : List (FileName × Entry)}

theorem symm (h : Reordered e e') : Reordered e' e := by
  induction h with
  | file => exact .file
  | link => exact .link
  | dir hperm _ ih => exact .dir hperm.symm fun name e' e hmem' hmem => ih name e e' hmem hmem'

theorem isDir_eq (h : Reordered e e') : e.isDir = e'.isDir := by
  cases h <;> rfl

/-- What one directory lists, the other lists under the same name. -/
theorem exists_mem (h : Reordered (.dir entries) (.dir entries')) {name : FileName}
    (hmem : (name, e) ∈ entries) : ∃ e', (name, e') ∈ entries' ∧ Reordered e e' := by
  cases h with
  | dir hperm hbelow =>
      have hname : name ∈ entries'.map (·.1) := hperm.mem_iff.1 (List.mem_map.2 ⟨_, hmem, rfl⟩)
      obtain ⟨⟨_, e'⟩, hmem', rfl⟩ := List.mem_map.1 hname
      exact ⟨e', hmem', hbelow _ e e' hmem hmem'⟩

theorem wellFormed (h : Reordered e e') (hwell : e.WellFormed) : e'.WellFormed := by
  induction h with
  | file => exact .file
  | link => exact .link
  | @dir entries entries' hperm hbelow ih =>
      have hback := (Reordered.dir hperm hbelow).symm
      cases hwell with
      | dir hnodup hproper hwell =>
          refine .dir (hperm.nodup_iff.1 hnodup) ?_ ?_
          · intro name e' hmem'
            obtain ⟨e, hmem, -⟩ := hback.exists_mem hmem'
            exact hproper name e hmem
          · intro name e' hmem'
            obtain ⟨e, hmem, -⟩ := hback.exists_mem hmem'
            exact ih name e e' hmem hmem' (hwell name e hmem)

theorem dir_of_perm (hnodup : (entries.map (·.1)).Nodup) (hperm : entries.Perm entries')
    (hbelow : ∀ name e, (name, e) ∈ entries → Reordered e e) :
    Reordered (.dir entries) (.dir entries') := by
  refine .dir (hperm.map _) fun name e e' hmem hmem' => ?_
  have hsame := ((Association.lookup_eq_some_iff_mem hnodup).2 hmem).symm.trans
    ((Association.lookup_eq_some_iff_mem hnodup).2 (hperm.mem_iff.2 hmem'))
  cases hsame
  exact hbelow name e hmem

theorem refl (hwell : e.WellFormed) : Reordered e e := by
  induction hwell with
  | file => exact .file
  | link => exact .link
  | dir hnodup _ _ ih => exact dir_of_perm hnodup (.refl _) ih

/-- Only one directory lists its entries in another order. -/
theorem of_perm (hwell : WellFormed (.dir entries)) (hperm : entries.Perm entries') :
    Reordered (.dir entries) (.dir entries') := by
  cases hwell with
  | dir hnodup _ hwell =>
      exact dir_of_perm hnodup hperm fun name e hmem => refl (hwell name e hmem)

/-! ## Finding the same -/

theorem lookup (h : Reordered (.dir entries) (.dir entries')) (hwell : WellFormed (.dir entries))
    (name : FileName) : Option.Rel Reordered (entries.lookup name) (entries'.lookup name) := by
  have hwell' := h.wellFormed hwell
  cases hfound : entries.lookup name with
  | none =>
      cases hfound' : entries'.lookup name with
      | none => exact .none
      | some e' =>
          obtain ⟨e, hmem, -⟩ := h.symm.exists_mem (hwell'.lookup_eq_some_iff.1 hfound')
          rw [hwell.lookup_eq_some_iff.2 hmem] at hfound
          cases hfound
  | some e =>
      obtain ⟨e', hmem', hbelow⟩ := h.exists_mem (hwell.lookup_eq_some_iff.1 hfound)
      rw [hwell'.lookup_eq_some_iff.2 hmem']
      exact .some hbelow

theorem at? (h : Reordered e e') (hwell : e.WellFormed) (place : Location) :
    Option.Rel Reordered (e.at? place) (e'.at? place) := by
  induction place generalizing e e' with
  | nil => exact .some h
  | cons name rest ih =>
      cases h with
      | file => exact .none
      | link => exact .none
      | @dir entries entries' hperm hbelow =>
          have hlookup := lookup (.dir hperm hbelow) hwell name
          simp only [Entry.at?]
          cases hfound : entries.lookup name with
          | none =>
              rw [hfound] at hlookup
              generalize entries'.lookup name = found at hlookup
              cases hlookup
              exact .none
          | some e =>
              rw [hfound] at hlookup
              generalize entries'.lookup name = found at hlookup
              cases hlookup with
              | some hinner =>
                  exact ih hinner (hwell.of_mem (hwell.lookup_eq_some_iff.1 hfound)).1

end Reordered

end Entry

namespace Disk

variable {tree tree' : Entry} {making : Bool} {budget : Nat} {place : Location}

/-- A step is taken alike in both trees, if what comes after it is followed alike. -/
theorem follow_cons_eq (h : tree.Reordered tree') (hwell : tree.WellFormed) {step : Step}
    {rest : List Step}
    (hrest : ∀ place, follow tree making budget place rest = follow tree' making budget place rest)
    (hlink : ∀ less target, less < budget → follow tree making less place (steps target ++ rest) =
      follow tree' making less place (steps target ++ rest)) :
    follow tree making budget place (step :: rest) =
      follow tree' making budget place (step :: rest) := by
  have hat := h.at? hwell place
  generalize hfound : tree.at? place = found at hat
  generalize hfound' : tree'.at? place = found' at hat
  cases step with
  | root =>
      rw [follow, follow]
      exact hrest []
  | here | up | close =>
      simp only [follow, hfound, hfound']
      cases hat with
      | none => rfl
      | some hinner => cases hinner with
        | file | link => rfl
        | dir => exact hrest _
  | name n =>
      simp only [follow, hfound, hfound']
      cases hat with
      | none => rfl
      | some hinner => cases hinner with
        | file | link => rfl
        | dir hperm hbelow =>
            have hlookup := Entry.Reordered.lookup (.dir hperm hbelow) (hwell.at? hfound).1 n
            dsimp only
            split
            · rfl
            · generalize List.lookup n _ = there at hlookup ⊢
              generalize List.lookup n _ = there' at hlookup ⊢
              cases hlookup with
              | none => rfl
              | some hentry => cases hentry with
                | file | dir => exact hrest _
                | link => cases budget with
                  | zero => rfl
                  | succ less => exact hlink less _ less.lt_succ_self

/-- A path is followed to the same location, whatever the order directories list in. -/
theorem follow_eq (h : tree.Reordered tree') (hwell : tree.WellFormed) (todo : List Step) :
    follow tree making budget place todo = follow tree' making budget place todo := by
  -- a link puts steps in its place, and uses up one of the budget
  induction budget using Nat.strongRecOn generalizing place todo with
  | ind budget ihbudget =>
      induction todo generalizing place with
      | nil => rw [follow, follow]
      | cons step rest ih =>
          exact follow_cons_eq h hwell (fun place => ih) fun less target hless =>
            ihbudget less hless (steps target ++ rest)

/-- The disks hold the same, in directories that may list it in different orders. -/
structure Reordered (disk disk' : Disk) : Prop where
  wellFormed : disk.root.WellFormed
  root : disk.root.Reordered disk'.root
  rest : disk' = { disk with root := disk'.root }

namespace Reordered

variable {disk disk' : Disk}

theorem symm (h : disk.Reordered disk') : disk'.Reordered disk :=
  ⟨h.root.wellFormed h.wellFormed, h.root.symm, by rw [h.rest]⟩

theorem working_eq (h : disk.Reordered disk') : disk'.working = disk.working := by
  rw [h.rest]

theorem user_eq (h : disk.Reordered disk') : disk'.user = disk.user := by
  rw [h.rest]

theorem opened_eq (h : disk.Reordered disk') (place : Location) (content : List UInt8) :
    disk'.opened place content = disk.opened place content := by
  rw [h.rest]
  rfl

theorem locate_eq (h : disk.Reordered disk') (making : Bool) (p : Path) :
    disk.locate making p = disk'.locate making p := by
  rw [locate, locate, follow_eq h.root h.wellFormed, h.working_eq]

theorem readBytes_eq (h : disk.Reordered disk') (p : Path) :
    disk.readBytes p = disk'.readBytes p := by
  rw [readBytes, readBytes, h.locate_eq]
  cases disk'.locate false p with
  | error cause => rfl
  | ok place =>
      have hat := h.root.at? h.wellFormed place
      dsimp only [bind, Except.bind]
      generalize disk.root.at? place = found at hat
      generalize disk'.root.at? place = found' at hat
      cases hat with
      | none => rfl
      | some hinner => cases hinner with
        | file => exact (h.opened_eq place _).symm
        | link | dir => rfl

theorem read_eq (h : disk.Reordered disk') : disk.read = disk'.read := by
  funext p
  rw [read, read, h.readBytes_eq]

end Reordered

end Disk

end ModuleGraph
