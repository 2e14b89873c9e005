/-!
# Lists cut at an element

A list is followed from one cut to the next (`splitOn_induct`). Its pieces hold what it holds,
without the element that it was cut at, and pieces that are not empty are found again in what they
are joined to. Where a list has an empty piece can be seen from the list itself
(`nil_mem_splitOn_iff`), and so can the piece that holds a part of the list which is not cut: it is
told by the number of cuts before the part (`exists_getElem?_splitOn`).
-/

namespace ModuleGraph

/-- What is in no piece and not between them is not in what they are joined to. -/
theorem not_mem_intercalate {α : Type} {a : α} {separator : List α} {pieces : List (List α)}
    (hsep : a ∉ separator) (h : ∀ piece ∈ pieces, a ∉ piece) :
    a ∉ separator.intercalate pieces := by
  induction pieces with
  | nil => exact List.not_mem_nil
  | cons first rest ih =>
      obtain ⟨hfirst, hrest⟩ := List.forall_mem_cons.1 h
      cases rest with
      | nil =>
          rw [List.intercalate_singleton]
          exact hfirst
      | cons next rest =>
          rw [List.intercalate_cons_cons, List.mem_append, List.mem_append, not_or, not_or]
          exact ⟨⟨hfirst, hsep⟩, ih hrest⟩

/-- Pieces are joined in two groups, with the separator between them. -/
theorem intercalate_append {α : Type} {separator : List α} {front rest : List (List α)}
    (hfront : front ≠ []) (hrest : rest ≠ []) :
    separator.intercalate (front ++ rest) =
      separator.intercalate front ++ (separator ++ separator.intercalate rest) := by
  induction front with
  | nil => exact absurd rfl hfront
  | cons piece front ih =>
      cases front with
      | nil =>
          obtain ⟨next, more, rfl⟩ := List.exists_cons_of_ne_nil hrest
          rw [List.singleton_append, List.intercalate_cons_cons, List.intercalate_singleton,
            List.append_assoc]
      | cons next front =>
          rw [List.cons_append, List.cons_append, List.intercalate_cons_cons, ← List.cons_append,
            ih (List.cons_ne_nil _ _), List.intercalate_cons_cons, List.append_assoc,
            List.append_assoc, List.append_assoc]

/-- A list that holds `a` can be cut at its last `a`. -/
theorem exists_last_cut {α : Type} {a : α} {l : List α} (h : a ∈ l) :
    ∃ front rest, l = front ++ a :: rest ∧ a ∉ rest := by
  obtain ⟨rest, front, hl, hrest⟩ := List.eq_append_cons_of_mem (List.mem_reverse.2 h)
  refine ⟨front.reverse, rest.reverse, ?_, mt List.mem_reverse.1 hrest⟩
  rw [← List.reverse_reverse l, hl, List.reverse_append, List.reverse_cons, List.append_assoc]
  rfl

variable {α : Type} [DecidableEq α] {a : α} {l piece : List α}

/-- What holds of a list without `a`, and of any other if it holds of what follows its first `a`,
holds of all lists and their pieces. -/
@[elab_as_elim]
theorem splitOn_induct {motive : List α → List (List α) → Prop}
    (last : ∀ piece, a ∉ piece → motive piece [piece])
    (next : ∀ piece rest, a ∉ piece → motive rest (rest.splitOn a) →
      motive (piece ++ a :: rest) (piece :: rest.splitOn a))
    (l : List α) : motive l (l.splitOn a) := by
  by_cases h : a ∈ l
  · obtain ⟨piece, rest, hl, hpiece⟩ := List.eq_append_cons_of_mem h
    have hshorter : rest.length < l.length := by
      rw [hl, List.length_append, List.length_cons]
      omega
    rw [hl, List.splitOn_append_cons_self_of_not_mem hpiece]
    exact next piece rest hpiece (splitOn_induct last next rest)
  · rw [List.splitOn_eq_singleton h]
    exact last l h
termination_by l.length

theorem splitOn_cons_self (a : α) (rest : List α) :
    (a :: rest).splitOn a = [] :: rest.splitOn a :=
  List.splitOn_append_cons_self [] rest

theorem not_mem_of_mem_splitOn (h : piece ∈ l.splitOn a) : a ∉ piece := by
  induction l using splitOn_induct with
  | last first hfirst =>
      rw [List.mem_singleton.1 h]
      exact hfirst
  | next first rest hfirst ih =>
      rcases List.mem_cons.1 h with rfl | h
      · exact hfirst
      · exact ih h

/-- A piece is a part of the list, with nothing left out. -/
theorem isInfix_of_mem_splitOn (h : piece ∈ l.splitOn a) : piece <:+: l := by
  induction l using splitOn_induct with
  | last first _ =>
      obtain rfl := List.mem_singleton.1 h
      exact List.infix_rfl
  | next first rest _ ih =>
      rcases List.mem_cons.1 h with rfl | h
      · exact (List.prefix_append _ _).isInfix
      · exact (ih h).trans ((List.suffix_cons a rest).trans (List.suffix_append first _)).isInfix

theorem subset_of_mem_splitOn (h : piece ∈ l.splitOn a) : piece ⊆ l :=
  (isInfix_of_mem_splitOn h).subset

/-- What the list is not cut at is in one of the pieces. -/
theorem exists_mem_splitOn {x : α} (h : x ∈ l) (hne : x ≠ a) :
    ∃ piece ∈ l.splitOn a, x ∈ piece := by
  refine Classical.byContradiction fun hnone => ?_
  have hpieces : ∀ piece ∈ l.splitOn a, x ∉ piece := by
    intro piece hpiece hx
    exact hnone ⟨piece, hpiece, hx⟩
  have hjoined := not_mem_intercalate (mt List.mem_singleton.1 hne) hpieces
  rw [List.intercalate_splitOn] at hjoined
  exact hjoined h

/-- A piece is empty where two cuts meet, or a cut and an end of the list. -/
theorem nil_mem_splitOn_iff : [] ∈ l.splitOn a ↔
    l = [] ∨ l.head? = some a ∨ l.getLast? = some a ∨ [a, a] <:+: l := by
  constructor
  · intro h
    induction l using splitOn_induct with
    | last piece _ => exact Or.inl (List.mem_singleton.1 h).symm
    | next piece rest _ ih =>
        rcases List.mem_cons.1 h with rfl | h
        · exact Or.inr (Or.inl rfl)
        · refine Or.inr (Or.inr ?_)
          rcases ih h with rfl | hhead | hlast | hin
          · exact Or.inl List.getLast?_concat
          · obtain ⟨rest, rfl⟩ := List.head?_eq_some_iff.1 hhead
            exact Or.inr ⟨piece, rest, by rw [List.append_assoc]; rfl⟩
          · obtain ⟨front, rfl⟩ := List.getLast?_eq_some_iff.1 hlast
            refine Or.inl (List.getLast?_eq_some_iff.2 ⟨piece ++ a :: front, ?_⟩)
            rw [List.append_assoc, List.cons_append]
          · exact Or.inr (hin.trans ((List.suffix_cons a rest).trans
              (List.suffix_append piece _)).isInfix)
  · rintro (rfl | hhead | hlast | ⟨front, rest, rfl⟩)
    · rw [List.splitOn_nil]
      exact List.mem_singleton.2 rfl
    · obtain ⟨rest, rfl⟩ := List.head?_eq_some_iff.1 hhead
      rw [splitOn_cons_self]
      exact List.mem_cons_self
    · obtain ⟨front, rfl⟩ := List.getLast?_eq_some_iff.1 hlast
      rw [List.splitOn_append_cons_self, List.splitOn_nil]
      exact List.mem_append_right _ (List.mem_singleton.2 rfl)
    · rw [List.append_assoc, List.cons_append, List.singleton_append,
        List.splitOn_append_cons_self, splitOn_cons_self]
      exact List.mem_append_right _ List.mem_cons_self

/-- A list is cut at its first `a` in one way. -/
theorem append_cons_inj_of_not_mem {front front' rest rest' : List α} (h : a ∉ front)
    (h' : a ∉ front') (heq : front ++ a :: rest = front' ++ a :: rest') :
    front = front' ∧ rest = rest' := by
  have hpieces := congrArg (List.splitOn a) heq
  rw [List.splitOn_append_cons_self_of_not_mem h, List.splitOn_append_cons_self_of_not_mem h']
    at hpieces
  obtain rfl : front = front' := (List.cons.inj hpieces).1
  exact ⟨rfl, (List.cons.inj (List.append_cancel_left heq)).2⟩

/-- There is one piece more than there are cuts. -/
theorem length_splitOn (a : α) (l : List α) : (l.splitOn a).length = l.count a + 1 := by
  induction l using splitOn_induct (a := a) with
  | last piece h => rw [List.length_singleton, List.count_eq_zero.2 h]
  | next piece rest h ih =>
      rw [List.length_cons, ih, List.count_append, List.count_eq_zero.2 h, List.count_cons_self,
        Nat.zero_add]

/-- What stands before the first cut is the front of the first piece. -/
theorem exists_splitOn_append {front : List α} (h : a ∉ front) (rest : List α) :
    ∃ piece later, (front ++ rest).splitOn a = (front ++ piece) :: later := by
  by_cases hrest : a ∈ rest
  · obtain ⟨piece, later, rfl, hpiece⟩ := List.eq_append_cons_of_mem hrest
    have hnone : a ∉ front ++ piece := by
      rw [List.mem_append, not_or]
      exact ⟨h, hpiece⟩
    refine ⟨piece, later.splitOn a, ?_⟩
    rw [← List.append_assoc, List.splitOn_append_cons_self_of_not_mem hnone]
  · have hnone : a ∉ front ++ rest := by
      rw [List.mem_append, not_or]
      exact ⟨h, hrest⟩
    exact ⟨rest, [], List.splitOn_eq_singleton hnone⟩

/-- A part that is not cut lies in one piece, with as many pieces before it as there are cuts before
the part. -/
theorem exists_getElem?_splitOn {part : List α} (h : a ∉ part) (before after : List α) :
    ∃ piece, ((before ++ (part ++ after)).splitOn a)[before.count a]? = some piece ∧
      part <:+: piece := by
  induction before using splitOn_induct (a := a) with
  | last first hfirst =>
      have hnone : a ∉ first ++ part := by
        rw [List.mem_append, not_or]
        exact ⟨hfirst, h⟩
      obtain ⟨piece, later, hsplit⟩ := exists_splitOn_append hnone after
      rw [← List.append_assoc, hsplit, List.count_eq_zero.2 hfirst]
      exact ⟨_, rfl, first, piece, rfl⟩
  | next first rest hfirst ih =>
      rw [List.append_assoc, List.cons_append, List.splitOn_append_cons_self_of_not_mem hfirst,
        List.count_append, List.count_eq_zero.2 hfirst, List.count_cons_self, Nat.zero_add,
        List.getElem?_cons_succ]
      exact ih

/-- Pieces that are not empty are found again in what they are joined to. -/
theorem filter_splitOn_intercalate {pieces : List (List α)}
    (h : ∀ piece ∈ pieces, piece ≠ [] ∧ a ∉ piece) :
    ((List.intercalate [a] pieces).splitOn a).filter (· ≠ []) = pieces := by
  cases pieces with
  | nil => rfl
  | cons first rest =>
      rw [List.splitOn_intercalate a (fun piece hmem => (h piece hmem).2) (List.cons_ne_nil _ _)]
      exact List.filter_eq_self.2 fun piece hmem => by simpa using (h piece hmem).1

end ModuleGraph
