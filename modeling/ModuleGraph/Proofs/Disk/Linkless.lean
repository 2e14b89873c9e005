import ModuleGraph.Proofs.Disk.Location
import ModuleGraph.Proofs.Splitting

/-!
# Trees without links

Where no link can be met, a path is followed name by name and is never replaced on the way. So a
step is taken exactly if there is something under its name (`follow_name_eq_ok_iff`), and a file is
read at the path of a location exactly if the location holds one that can be read
(`readBytes_path_eq_ok_iff`).
-/

namespace ModuleGraph

namespace Entry

/-- No location of the tree holds a link. -/
def IsLinkless (tree : Entry) : Prop :=
  ∀ place target, tree.at? place ≠ some (.link target)

theorem isLinkless_file (content : List UInt8) : IsLinkless (.file content) := by
  intro place target hat
  cases place with
  | nil => cases hat
  | cons _ _ => cases hat

theorem isLinkless_dir {entries : List (FileName × Entry)}
    (h : ∀ entry ∈ entries, entry.2.IsLinkless) : IsLinkless (.dir entries) := by
  intro place target hat
  cases place with
  | nil => cases hat
  | cons name rest =>
      obtain ⟨inner, hlookup, hinner⟩ := Option.bind_eq_some_iff.1 hat
      obtain ⟨before, after, rfl, -⟩ := List.lookup_eq_some_iff.1 hlookup
      exact h (name, inner) (List.mem_append_right _ List.mem_cons_self) rest target hinner

mutual

/-- No link is met anywhere in the tree. -/
def holdsNoLink : Entry → Bool
  | .file _ => true
  | .link _ => false
  | .dir entries => holdNoLink entries

def holdNoLink : List (FileName × Entry) → Bool
  | [] => true
  | (_, e) :: rest => e.holdsNoLink && holdNoLink rest

end

theorem holdNoLink_iff {entries : List (FileName × Entry)} :
    holdNoLink entries = true ↔ ∀ entry ∈ entries, entry.2.holdsNoLink = true := by
  induction entries with
  | nil => simp [holdNoLink]
  | cons head rest ih => rw [holdNoLink, Bool.and_eq_true, ih, List.forall_mem_cons]

theorem isLinkless_of_holdsNoLink {e : Entry} (h : e.holdsNoLink = true) : e.IsLinkless := by
  induction e using induct with
  | file content => exact isLinkless_file content
  | link target => cases h
  | dir entries ih =>
      refine isLinkless_dir fun entry hmem => ih entry.1 entry.2 hmem ?_
      exact holdNoLink_iff.1 h entry hmem

/-- What is in a directory is what is one name further. -/
theorem at?_concat_eq_some_iff {tree e : Entry} {place : List FileName} {name : FileName} :
    tree.at? (place ++ [name]) = some e ↔
      ∃ entries, tree.at? place = some (.dir entries) ∧ entries.lookup name = some e := by
  rw [at?_append, Option.bind_eq_some_iff]
  constructor
  · rintro ⟨here, hhere, hname⟩
    cases here with
    | file _ => cases hname
    | link _ => cases hname
    | dir entries =>
        obtain ⟨inner, hlookup, hinner⟩ := Option.bind_eq_some_iff.1 hname
        cases hinner
        exact ⟨entries, hhere, hlookup⟩
  · rintro ⟨entries, hhere, hlookup⟩
    refine ⟨_, hhere, ?_⟩
    rw [at?, hlookup]
    rfl

/-- Only in a directory can there be a directory. -/
theorem isDir_of_at?_dir {tree : Entry} {place : List FileName}
    {entries : List (FileName × Entry)} (h : tree.at? place = some (.dir entries)) :
    tree.isDir = true := by
  cases tree with
  | dir _ => rfl
  | file _ => cases place with
    | nil => cases h
    | cons _ _ => cases h
  | link _ => cases place with
    | nil => cases h
    | cons _ _ => cases h

end Entry

namespace Disk

open Entry

variable {tree : Entry} {budget : Nat} {place found names : Location} {rest : List Step}

/-! ## One step, where nothing is made -/

theorem follow_name_eq_ok_iff (hlinks : tree.IsLinkless) {name : FileName} :
    follow tree false budget place (.name name :: rest) = .ok found ↔
      (∃ e, tree.at? (place ++ [name]) = some e) ∧
        follow tree false budget (place ++ [name]) rest = .ok found := by
  simp only [at?_concat_eq_some_iff]
  cases hhere : tree.at? place with
  | none => simp [follow, hhere]
  | some here => cases here with
    | file _ => simp [follow, hhere]
    | link _ => simp [follow, hhere]
    | dir entries =>
        cases hlookup : entries.lookup name with
        | none => simp [follow, hhere, hlookup]
        | some e => cases e with
          | file _ => simp [follow, hhere, hlookup]
          | dir _ => simp [follow, hhere, hlookup]
          | link target =>
              have hat := at?_concat_eq_some_iff.2 ⟨entries, hhere, hlookup⟩
              exact absurd hat (hlinks _ target)

/-- Names are followed to where they lead, if they are followed at all. -/
theorem eq_append_of_follow_names (hlinks : tree.IsLinkless)
    (h : follow tree false budget place (names.map .name) = .ok found) : found = place ++ names := by
  induction names generalizing place with
  | nil =>
      rw [List.map_nil, follow] at h
      rw [List.append_nil, Except.ok.inj h]
  | cons name rest ih =>
      obtain ⟨-, hrest⟩ := (follow_name_eq_ok_iff hlinks).1 h
      rw [ih hrest, List.append_assoc, List.singleton_append]

/-- What is at a location of the one tree is at that location of the other, a directory where there
is a directory. What is in a directory may differ. -/
def Keeps (tree tree' : Entry) : Prop :=
  ∀ place e, tree.at? place = some e → ∃ e', tree'.at? place = some e' ∧ e'.isDir = e.isDir

theorem Keeps.exists_dir {tree' : Entry} (h : Keeps tree tree') {entries : List (FileName × Entry)}
    (hat : tree.at? place = some (.dir entries)) :
    ∃ entries', tree'.at? place = some (.dir entries') := by
  obtain ⟨e', hat', hdir⟩ := h place _ hat
  cases e' with
  | file _ => cases hdir
  | link _ => cases hdir
  | dir entries' => exact ⟨entries', hat'⟩

/-- Steps that lead somewhere lead there in every tree that keeps what there is. -/
theorem Keeps.follow {tree' : Entry} (h : Keeps tree tree') (hlinks : tree.IsLinkless)
    (hlinks' : tree'.IsLinkless) {todo : List Step}
    (hfollow : follow tree false budget place todo = .ok found) :
    follow tree' false budget place todo = .ok found := by
  induction todo generalizing place with
  | nil =>
      rw [Disk.follow] at hfollow ⊢
      exact hfollow
  | cons step rest ih =>
      cases step with
      | root =>
          rw [Disk.follow] at hfollow ⊢
          exact ih hfollow
      | name name =>
          obtain ⟨⟨e, hat⟩, hrest⟩ := (follow_name_eq_ok_iff hlinks).1 hfollow
          obtain ⟨e', hat', -⟩ := h _ e hat
          exact (follow_name_eq_ok_iff hlinks').2 ⟨⟨e', hat'⟩, ih hrest⟩
      | here | up | close =>
          cases hhere : tree.at? place with
          | none => simp [Disk.follow, hhere] at hfollow
          | some here => cases here with
            | file _ => simp [Disk.follow, hhere] at hfollow
            | link _ => simp [Disk.follow, hhere] at hfollow
            | dir entries =>
                obtain ⟨entries', hhere'⟩ := h.exists_dir hhere
                simp only [Disk.follow, hhere] at hfollow
                simp only [Disk.follow, hhere']
                exact ih hfollow

/-! ## Reading at the path of a location -/

variable {disk : Disk}

/-- A file is read at the path of a location if the location holds it and it can be read, and not
otherwise. -/
theorem readBytes_path_eq_ok_iff {content : List UInt8} (hwell : disk.root.WellFormed)
    (hlinks : disk.root.IsLinkless) (hproper : ∀ name ∈ place, FileName.IsProper name)
    (hne : place ≠ []) :
    disk.readBytes place.path = .ok content ↔
      disk.root.at? place = some (.file content) ∧ disk.unreadable place = none := by
  constructor
  · intro h
    rw [readBytes] at h
    cases hlocate : disk.locate false place.path with
    | error cause =>
        rw [hlocate] at h
        cases h
    | ok found =>
        have hbytes : place.path.bytes ≠ [] := List.cons_ne_nil _ _
        have hfollow := hlocate
        rw [locate, if_neg hbytes, Location.steps_path hproper hne, follow] at hfollow
        have hfound := eq_append_of_follow_names hlinks hfollow
        rw [List.nil_append] at hfound
        subst hfound
        simp only [hlocate, bind, Except.bind] at h
        cases hat : disk.root.at? found with
        | none => simp [hat] at h
        | some e => cases e with
          | file content' =>
              simp only [hat] at h
              obtain ⟨hreadable, rfl⟩ := opened_eq_ok_iff.1 h
              exact ⟨rfl, hreadable⟩
          | link _ => simp [hat] at h
          | dir _ => simp [hat] at h
  · rintro ⟨hat, hreadable⟩
    rw [readBytes_path hwell hat hne, opened_eq_ok_iff]
    exact ⟨hreadable, rfl⟩

/-- The content of the file at a location, if it can be read. -/
def content? (disk : Disk) (place : Location) : Option (List UInt8) :=
  match disk.root.at? place with
  | some (.file content) => if (disk.unreadable place).isNone then some content else none
  | _ => none

theorem content?_eq_some_iff {content : List UInt8} : disk.content? place = some content ↔
    disk.root.at? place = some (.file content) ∧ disk.unreadable place = none := by
  rw [content?]
  cases disk.root.at? place with
  | none => simp
  | some e => cases e with
    | file bytes => cases disk.unreadable place <;> simp
    | link _ | dir _ => simp

/-- Reading at the path of a location gives what the location holds. -/
theorem toOption_readBytes_path (hwell : disk.root.WellFormed) (hlinks : disk.root.IsLinkless)
    (hproper : ∀ name ∈ place, FileName.IsProper name) (hne : place ≠ []) :
    (disk.readBytes place.path).toOption = disk.content? place := by
  refine Option.ext fun content => ?_
  rw [content?_eq_some_iff, ← readBytes_path_eq_ok_iff hwell hlinks hproper hne]
  cases disk.readBytes place.path with
  | ok bytes => simp [Except.toOption]
  | error cause => simp [Except.toOption]

end Disk

namespace Location

open ModuleGraph.Path

/-- The relative path of some names. -/
def relative (names : Location) : Path :=
  ⟨List.intercalate [slash] names⟩

theorem isAbsolute_relative {names : Location} (h : ∀ name ∈ names, FileName.IsProper name) :
    (relative names).isAbsolute = false := by
  cases names with
  | nil => rfl
  | cons name rest =>
      have hname := h name List.mem_cons_self
      obtain ⟨first, bytes, rfl⟩ := List.exists_cons_of_ne_nil hname.ne_nil
      have hfirst : first ≠ slash := fun heq => hname.no_slash (heq ▸ List.mem_cons_self)
      have hhead : (List.intercalate [slash] ((first :: bytes) :: rest)).head? = some first := by
        cases rest with
        | nil => rw [List.intercalate_singleton, List.head?_cons]
        | cons next rest => rw [List.intercalate_cons_cons, List.cons_append, List.cons_append,
            List.head?_cons]
      rw [isAbsolute, relative, hhead, beq_eq_false_iff_ne]
      exact fun heq => hfirst (Option.some.inj heq)

/-- Names lead on from the path of a location to the path of the location they lead to. -/
theorem path_join {place names : Location} (hplace : ∀ name ∈ place, FileName.IsProper name)
    (hnames : ∀ name ∈ names, FileName.IsProper name) (hne : names ≠ []) :
    place.path.join (relative names) = Location.path (place ++ names) := by
  have hstart : place.path.bytes.isEmpty = false := rfl
  rw [Path.join, isAbsolute_relative hnames, hstart]
  by_cases hnil : place = []
  · subst hnil
    rfl
  · obtain ⟨last, hlast, hslash⟩ := exists_getLast?_intercalate hplace hnil
    have hend : (place.path.bytes.getLast? == some slash) = false := by
      rw [path, List.getLast?_cons, hlast, Option.getD_some, beq_eq_false_iff_ne]
      exact fun heq => hslash (Option.some.inj heq)
    rw [hend, path, path, intercalate_append hnil hne]
    rfl

end Location

end ModuleGraph
