import ModuleGraph.Proofs.Association
import ModuleGraph.Proofs.Json.KeyOrder
import ModuleGraph.Proofs.Serialized.Reload

/-!
# Records are read in any order of their keys

A record is read by the names of its parts. The keys of a record are all different, so which part
has a name does not depend on where it stands (`Same.parts?_rel`), and whatever is read of two
values that differ in the order of their keys is the same, up to a whole graph
(`Graph.ofJson?_eq_of_same`).
-/

namespace ModuleGraph

namespace Json

variable {v v' : Json} {items items' : List Json} {members members' : List (Option String × Json)}

/-! ## Plain values -/

theorem Same.text?_eq (h : v.Same v') : text? v = text? v' := by
  cases h <;> rfl

theorem Same.nat?_eq (h : v.Same v') : nat? v = nat? v' := by
  cases h <;> rfl

/-- Items are read alike if each of them is. -/
theorem SameItems.mapM_eq {α : Type} {read : Json → Option α}
    (hread : ∀ {v v' : Json}, v.Same v' → read v = read v') (h : SameItems items items') :
    items.mapM read = items'.mapM read := by
  induction items generalizing items' with
  | nil =>
      cases h
      rfl
  | cons v items ih => cases h with
    | cons hv hitems => rw [List.mapM_cons, List.mapM_cons, hread hv, ih hitems]

theorem Same.texts?_eq (h : v.Same v') : texts? v = texts? v' := by
  cases h with
  | arr h => exact h.mapM_eq Same.text?_eq
  | _ => rfl

/-- As an object, a choice has a single member. -/
theorem choice?_obj_eq_some_iff {s : String} :
    choice? (.obj members) = some s ↔ members = [(some s, .null)] := by
  constructor
  · intro h
    rw [choice?.eq_def] at h
    split at h
    · next heq => cases heq
    · next heq =>
      cases heq
      rw [h]
    · cases h
  · rintro rfl
    rfl

theorem SameMembers.eq_singleton_iff (h : SameMembers members members') {key : Option String} :
    members = [(key, .null)] ↔ members' = [(key, .null)] := by
  constructor
  · rintro rfl
    cases h with
    | cons hv hrest =>
        cases hv
        cases hrest
        rfl
  · rintro rfl
    cases h with
    | cons hv hrest =>
        cases hv
        cases hrest
        rfl

theorem Same.choice?_eq (h : v.Same v') : choice? v = choice? v' := by
  cases h with
  | obj hperm hmembers =>
      refine Option.ext fun s => ?_
      rw [choice?_obj_eq_some_iff, choice?_obj_eq_some_iff, ← hmembers.eq_singleton_iff]
      constructor
      · rintro rfl
        exact (List.singleton_perm.1 hperm).symm
      · rintro rfl
        exact List.perm_singleton.1 hperm
  | _ => rfl

/-! ## Parts of a record -/

/-- The members whose keys are texts. -/
def keyed (members : List (Option String × Json)) : List (String × Json) :=
  members.filterMap fun m => m.1.map (·, m.2)

/-- The members whose keys are among `names`. -/
def known (names : List String) (members : List (Option String × Json)) : List (String × Json) :=
  (keyed members).filter (names.contains ·.1)

/-- All keys are texts, and no two of the known ones are one. -/
def Tells (names : List String) (members : List (Option String × Json)) : Prop :=
  (∀ m ∈ members, m.1.isSome = true) ∧ ((known names members).map (·.1)).Nodup

theorem known_perm {ordered : List (Option String × Json)} (h : members.Perm ordered)
    (names : List String) : (known names members).Perm (known names ordered) :=
  (h.filterMap _).filter _

theorem mapM_key (members : List (Option String × Json)) :
    (members.mapM fun m => m.1.map (·, m.2)) =
      if ∀ m ∈ members, m.1.isSome = true then some (keyed members) else none := by
  induction members with
  | nil => rfl
  | cons m members ih =>
      obtain ⟨key, v⟩ := m
      rw [List.mapM_cons, ih]
      cases key with
      | none => simp
      | some key =>
          simp only [List.forall_mem_cons, Option.isSome_some, true_and]
          split <;> simp [keyed]

theorem parts?_of_tells {names : List String} (h : Tells names members) :
    parts? names (.obj members) = some (known names members) := by
  rw [parts?, mapM_key, if_pos h.1]
  exact if_pos h.2

theorem parts?_of_not_tells {names : List String} (h : ¬ Tells names members) :
    parts? names (.obj members) = none := by
  rw [parts?, mapM_key]
  split
  · next hkeys => exact if_neg fun hdiff => h ⟨hkeys, hdiff⟩
  · rfl

/-- The parts of one name are the same, or missing in both. -/
def SameParts (parts parts' : List (String × Json)) : Prop :=
  ∀ name, Option.Rel Same (parts.lookup name) (parts'.lookup name)

theorem SameParts.cons {parts parts' : List (String × Json)} (h : SameParts parts parts')
    (name : String) (hv : v.Same v') : SameParts ((name, v) :: parts) ((name, v') :: parts') := by
  intro other
  rw [List.lookup_cons, List.lookup_cons]
  cases other == name with
  | true => exact .some hv
  | false => exact h other

theorem SameMembers.forall_isSome_iff (h : SameMembers members members') :
    (∀ m ∈ members, m.1.isSome = true) ↔ ∀ m ∈ members', m.1.isSome = true := by
  induction members generalizing members' with
  | nil =>
      cases h
      exact Iff.rfl
  | cons m members ih => cases h with
    | cons _ hrest => rw [List.forall_mem_cons, List.forall_mem_cons, ih hrest]

theorem SameMembers.known (h : SameMembers members members') (names : List String) :
    (known names members).map (·.1) = (Json.known names members').map (·.1) ∧
      SameParts (Json.known names members) (Json.known names members') := by
  induction members generalizing members' with
  | nil =>
      cases h
      exact ⟨rfl, fun _ => .none⟩
  | cons m members ih => cases h with
    | @cons key v v' _ members' hv hrest =>
        obtain ⟨hnames, hparts⟩ := ih hrest
        cases key with
        | none => exact ⟨hnames, hparts⟩
        | some key =>
            by_cases hkey : names.contains key = true
            · have hcons : ∀ (v : Json) (members : List (Option String × Json)),
                  Json.known names ((some key, v) :: members) =
                    (key, v) :: Json.known names members :=
                fun v members => List.filter_cons_of_pos hkey
              rw [hcons, hcons, List.map_cons, List.map_cons, hnames]
              exact ⟨rfl, hparts.cons key hv⟩
            · have hcons : ∀ (v : Json) (members : List (Option String × Json)),
                  Json.known names ((some key, v) :: members) = Json.known names members :=
                fun v members => List.filter_cons_of_neg hkey
              rw [hcons, hcons]
              exact ⟨hnames, hparts⟩

/-- Items bear the names in turn. -/
theorem SameItems.zip (h : SameItems items items') (names : List String) :
    SameParts (names.zip items) (names.zip items') := by
  induction names generalizing items items' with
  | nil => exact fun _ => .none
  | cons name names ih => cases h with
    | nil => exact fun _ => .none
    | cons hv hrest => exact (ih hrest).cons name hv

theorem SameItems.length_eq (h : SameItems items items') : items.length = items'.length := by
  induction items generalizing items' with
  | nil =>
      cases h
      rfl
  | cons v items ih => cases h with
    | cons _ hrest => rw [List.length_cons, List.length_cons, ih hrest]

/-- The parts of a record do not depend on the order in which they are written. -/
theorem Same.parts?_rel (h : v.Same v') (names : List String) :
    Option.Rel SameParts (parts? names v) (parts? names v') := by
  cases h with
  | @obj members ordered members' hperm hmembers =>
      have hknown := known_perm hperm names
      obtain ⟨hnames, hparts⟩ := hmembers.known names
      have htells : Tells names members ↔ Tells names members' := by
        rw [Tells, Tells, ← hmembers.forall_isSome_iff, ← hnames, (hknown.map _).nodup_iff]
        simp only [hperm.mem_iff]
      by_cases h : Tells names members
      · rw [parts?_of_tells h, parts?_of_tells (htells.1 h)]
        refine .some fun name => ?_
        rw [Association.lookup_eq_of_perm h.2 hknown]
        exact hparts name
      · rw [parts?_of_not_tells h, parts?_of_not_tells (mt htells.2 h)]
        exact .none
  | @arr items items' hitems =>
      rw [parts?, parts?, hitems.length_eq]
      split
      · exact .some (hitems.zip names)
      · exact .none
  | _ => exact .none

variable {parts parts' : List (String × Json)} {α : Type} {read : Json → Option α}

theorem SameParts.required?_eq (h : SameParts parts parts') (name : String)
    (hread : ∀ {v v' : Json}, v.Same v' → read v = read v') :
    required? parts name read = required? parts' name read := by
  have hname := h name
  rw [required?, required?]
  generalize parts.lookup name = part at hname
  generalize parts'.lookup name = part' at hname
  cases hname with
  | none => rfl
  | some hv => exact hread hv

theorem SameParts.optional?_eq (h : SameParts parts parts') (name : String) (default : α)
    (hread : ∀ {v v' : Json}, v.Same v' → read v = read v') :
    optional? parts name read default = optional? parts' name read default := by
  have hname := h name
  rw [optional?, optional?]
  generalize parts.lookup name = part at hname
  generalize parts'.lookup name = part' at hname
  cases hname with
  | none => rfl
  | some hv => exact hread hv

/-- What is read of the parts of a record is read of them in any order. -/
theorem Same.bind_parts?_eq (h : v.Same v') (names : List String)
    {read : List (String × Json) → Option α}
    (hread : ∀ {parts parts' : List (String × Json)}, SameParts parts parts' →
      read parts = read parts') : (parts? names v).bind read = (parts? names v').bind read := by
  have hrel := h.parts?_rel names
  generalize parts? names v = found at hrel
  generalize parts? names v' = found' at hrel
  cases hrel with
  | none => rfl
  | some hparts => exact hread hparts

end Json

open Json

variable {v v' : Json}

/-! ## Nodes, edges, graphs -/

theorem FileId.ofJson?_eq_of_same (h : v.Same v') : ofJson? v = ofJson? v' := by
  rw [ofJson?, ofJson?, h.text?_eq]

theorem NodeKind.ofJson?_eq_of_same (h : v.Same v') : ofJson? v = ofJson? v' := by
  rw [ofJson?, ofJson?, h.choice?_eq]

theorem EdgeKind.ofJson?_eq_of_same (h : v.Same v') : ofJson? v = ofJson? v' := by
  rw [ofJson?, ofJson?, h.choice?_eq]

theorem Node.ofJson?_eq_of_same (h : v.Same v') : ofJson? v = ofJson? v' := by
  refine h.bind_parts?_eq _ fun hparts => ?_
  rw [hparts.required?_eq "id" FileId.ofJson?_eq_of_same,
    hparts.required?_eq "label" Same.text?_eq,
    hparts.optional?_eq "type" .file NodeKind.ofJson?_eq_of_same]

theorem Edge.ofJson?_eq_of_same (h : v.Same v') : ofJson? v = ofJson? v' := by
  refine h.bind_parts?_eq _ fun hparts => ?_
  rw [hparts.required?_eq "source" FileId.ofJson?_eq_of_same,
    hparts.required?_eq "target" FileId.ofJson?_eq_of_same,
    hparts.required?_eq "kind" EdgeKind.ofJson?_eq_of_same,
    hparts.required?_eq "importedNames" Same.texts?_eq,
    hparts.required?_eq "lineNumber" Same.nat?_eq]

namespace Graph

theorem list?_eq_of_same {α : Type} {read : Json → Option α}
    (hread : ∀ {v v' : Json}, v.Same v' → read v = read v') (h : v.Same v') :
    list? read v = list? read v' := by
  cases h with
  | arr hitems => exact hitems.mapM_eq hread
  | _ => rfl

theorem ofJson?_eq_of_same (h : v.Same v') : ofJson? v = ofJson? v' := by
  refine h.bind_parts?_eq _ fun hparts => ?_
  rw [hparts.required?_eq "nodes" (list?_eq_of_same Node.ofJson?_eq_of_same),
    hparts.required?_eq "edges" (list?_eq_of_same Edge.ofJson?_eq_of_same)]

end Graph

end ModuleGraph
