import ModuleGraph.Disk
import ModuleGraph.Proofs.Association

/-!
# Trees of files

A directory holds each name once, and a name is one that a path can spell: neither empty nor `.`
nor `..`, and without a slash. `WellFormed` says this of a tree at every depth. In such a tree what
a directory lists is what it has under a name (`WellFormed.lookup_eq_some_iff`), so a location leads
to one entry at most, and the way to it is through the lists of the directories.
-/

namespace ModuleGraph

/-- A path can spell the name. -/
structure FileName.IsProper (name : FileName) : Prop where
  ne_nil : name ≠ []
  ne_dot : name ≠ [Path.dot]
  ne_dots : name ≠ [Path.dot, Path.dot]
  no_slash : Path.slash ∉ name

instance (name : FileName) : Decidable name.IsProper :=
  decidable_of_iff
    (name ≠ [] ∧ name ≠ [Path.dot] ∧ name ≠ [Path.dot, Path.dot] ∧ Path.slash ∉ name)
    ⟨fun ⟨hnil, hdot, hdots, hslash⟩ => ⟨hnil, hdot, hdots, hslash⟩,
      fun ⟨hnil, hdot, hdots, hslash⟩ => ⟨hnil, hdot, hdots, hslash⟩⟩

namespace Entry

/-- Each directory holds proper names, and each of them once. -/
inductive WellFormed : Entry → Prop
  | file {content : List UInt8} : WellFormed (.file content)
  | link {target : Path} : WellFormed (.link target)
  | dir {entries : List (FileName × Entry)} : (entries.map (·.1)).Nodup →
      (∀ name e, (name, e) ∈ entries → FileName.IsProper name) →
      (∀ name e, (name, e) ∈ entries → WellFormed e) → WellFormed (.dir entries)

/-- What holds of files, of links, and of a directory if it holds of all that is in it, holds of
every entry. -/
@[elab_as_elim]
theorem induct {motive : Entry → Prop} (file : ∀ content, motive (.file content))
    (link : ∀ target, motive (.link target))
    (dir : ∀ entries, (∀ name e, (name, e) ∈ entries → motive e) → motive (.dir entries))
    (e : Entry) : motive e := by
  refine Entry.rec (motive_1 := motive) (motive_3 := fun entry => motive entry.2)
    (motive_2 := fun entries => ∀ name e, (name, e) ∈ entries → motive e)
    file link dir ?_ ?_ ?_ e
  · intro name e h
    cases h
  · intro head tail hhead htail name e h
    rcases List.mem_cons.1 h with rfl | h
    · exact hhead
    · exact htail name e h
  · intro name e h
    exact h

variable {e : Entry} {entries : List (FileName × Entry)} {name : FileName}

/-! ## Well-formed trees -/

theorem WellFormed.of_mem (h : WellFormed (.dir entries)) (hmem : (name, e) ∈ entries) :
    WellFormed e ∧ name.IsProper := by
  cases h with
  | dir _ hproper hwell => exact ⟨hwell name e hmem, hproper name e hmem⟩

mutual

/-- Decides `WellFormed`. -/
def isWellFormed : Entry → Bool
  | .file _ => true
  | .link _ => true
  | .dir entries => decide (entries.map (·.1)).Nodup && allWellFormed entries

def allWellFormed : List (FileName × Entry) → Bool
  | [] => true
  | (name, e) :: rest => decide name.IsProper && e.isWellFormed && allWellFormed rest

end

theorem allWellFormed_iff : allWellFormed entries = true ↔
    ∀ name e, (name, e) ∈ entries → name.IsProper ∧ e.isWellFormed = true := by
  induction entries with
  | nil => simp [allWellFormed]
  | cons head rest ih =>
      obtain ⟨first, old⟩ := head
      rw [allWellFormed, Bool.and_eq_true, Bool.and_eq_true, decide_eq_true_eq, ih]
      simp only [List.mem_cons, Prod.mk.injEq]
      constructor
      · rintro ⟨hhead, hrest⟩ name e (⟨rfl, rfl⟩ | hmem)
        · exact hhead
        · exact hrest name e hmem
      · intro h
        exact ⟨h first old (Or.inl ⟨rfl, rfl⟩), fun name e hmem => h name e (Or.inr hmem)⟩

theorem isWellFormed_iff : e.isWellFormed = true ↔ e.WellFormed := by
  induction e using induct with
  | file content => exact iff_of_true rfl .file
  | link target => exact iff_of_true rfl .link
  | dir entries ih =>
      rw [isWellFormed, Bool.and_eq_true, decide_eq_true_eq, allWellFormed_iff]
      constructor
      · rintro ⟨hnodup, hall⟩
        exact .dir hnodup (fun name e hmem => (hall name e hmem).1)
          fun name e hmem => (ih name e hmem).1 (hall name e hmem).2
      · rintro (_ | _ | ⟨hnodup, hproper, hwell⟩)
        exact ⟨hnodup, fun name e hmem =>
          ⟨hproper name e hmem, (ih name e hmem).2 (hwell name e hmem)⟩⟩

instance : DecidablePred WellFormed :=
  fun _ => decidable_of_iff _ isWellFormed_iff

/-! ## What a directory has under a name -/

theorem WellFormed.lookup_eq_some_iff (h : WellFormed (.dir entries)) :
    entries.lookup name = some e ↔ (name, e) ∈ entries := by
  cases h with
  | dir hnodup => exact Association.lookup_eq_some_iff_mem hnodup

/-! ## Locations in a tree -/

theorem at?_cons_eq_some_iff (h : WellFormed (.dir entries)) {rest : List FileName} {e : Entry} :
    (Entry.dir entries).at? (name :: rest) = some e ↔
      ∃ inner, (name, inner) ∈ entries ∧ inner.at? rest = some e := by
  simp only [at?, Option.bind_eq_some_iff, h.lookup_eq_some_iff]

theorem at?_append (e : Entry) (front rest : List FileName) :
    e.at? (front ++ rest) = (e.at? front).bind (·.at? rest) := by
  induction front generalizing e with
  | nil => rfl
  | cons name front ih =>
      cases e with
      | file _ => rfl
      | link _ => rfl
      | dir entries =>
          simp only [List.cons_append, at?]
          cases entries.lookup name with
          | none => rfl
          | some inner => exact ih inner

/-- What is at a location of a well-formed tree is well-formed, and the location has proper
names. -/
theorem WellFormed.at? (h : WellFormed e) {place : List FileName} {inner : Entry}
    (hat : e.at? place = some inner) : WellFormed inner ∧ ∀ name ∈ place, name.IsProper := by
  induction place generalizing e with
  | nil =>
      cases hat
      exact ⟨h, fun _ hmem => absurd hmem List.not_mem_nil⟩
  | cons name rest ih =>
      cases e with
      | file _ => cases hat
      | link _ => cases hat
      | dir entries =>
          obtain ⟨next, hmem, hnext⟩ := (at?_cons_eq_some_iff h).1 hat
          obtain ⟨hwell, hproper⟩ := h.of_mem hmem
          obtain ⟨hinner, hrest⟩ := ih hwell hnext
          exact ⟨hinner, List.forall_mem_cons.2 ⟨hproper, hrest⟩⟩

end Entry

end ModuleGraph
