import ModuleGraph.Proofs.Statement.Grammar

/-!
# A scan misses nothing and invents nothing

`IsScan base cs found` says, without a word on how it was done, that `found` are the statements of
`cs` from left to right: each is spelled where it is said to stand, each ends before the next one
begins, and no statement begins at a place that lies in none of them. A statement that begins
inside another one is hidden by it. `base` is the number of characters that stand before `cs`.

The three conditions leave one possibility, `isScan_iff`. The induction is on the text as `scan`
walks it, and each kind of step is an equivalence of its own: where no statement begins, a scan
from here is a scan from the next character (`isScan_skip`); where one does, it is the first of
the scan, and the others are a scan of the rest (`isScan_take`).
-/

namespace ModuleGraph

namespace Statement

/-- The place behind an occurrence. -/
def Occurrence.stop (o : Occurrence) : Nat :=
  o.offset + o.written.length

/-- A statement is spelled at the front of the text. -/
def Begins (cs : List Char) : Prop :=
  ∃ (s : Statement) (front : List Char), s.Written front ∧ front <+: cs

/-- `found` are the statements of `cs`, from left to right. -/
structure IsScan (base : Nat) (cs : List Char) (found : List Occurrence) : Prop where
  /-- What is found is spelled where it is said to stand. -/
  spelled : ∀ o ∈ found, o.statement.Written o.written ∧ base ≤ o.offset ∧
    o.written <+: cs.drop (o.offset - base)
  /-- Each ends before the next one begins. -/
  ordered : found.Pairwise fun o later => o.stop ≤ later.offset
  /-- No statement begins before, between or behind what is found. -/
  missed : ∀ k, (∀ o ∈ found, base + k < o.offset ∨ o.stop ≤ base + k) → ¬ Begins (cs.drop k)

/-! ## Where a statement begins -/

theorem not_begins_nil : ¬ Begins [] := by
  rintro ⟨s, front, hw, hp⟩
  exact hw.ne_nil (List.prefix_nil.1 hp)

theorem begins_append {s : Statement} {front : List Char} (h : s.Written front)
    (rest : List Char) : Begins (front ++ rest) :=
  ⟨s, front, h, List.prefix_append front rest⟩

theorem begins_iff {cs : List Char} : Begins cs ↔ ∃ s rest, read? cs = some (s, rest) := by
  constructor
  · rintro ⟨s, front, hw, rest, rfl⟩
    exact ⟨s, rest, read?_append hw rest⟩
  · rintro ⟨s, rest, h⟩
    obtain ⟨front, hw, rfl⟩ := read?_eq_some_iff.1 h
    exact begins_append hw rest

/-- A statement begins with the first letter of `import`. -/
theorem not_begins_of_ne {c : Char} {cs : List Char} (h : c ≠ 'i') : ¬ Begins (c :: cs) := by
  rintro ⟨s, front, hw, hprefix⟩
  cases hw with
  | mk => exact h (List.cons_prefix_cons.1 hprefix).1.symm

theorem Occurrence.offset_lt_stop {o : Occurrence} (h : o.statement.Written o.written) :
    o.offset < o.stop := by
  have := List.length_pos_iff.2 h.ne_nil
  unfold stop
  omega

/-! ## One step of a scan -/

theorem isScan_nil {base : Nat} {found : List Occurrence} : IsScan base [] found ↔ found = [] := by
  constructor
  · intro h
    refine List.eq_nil_iff_forall_not_mem.2 fun o ho => ?_
    obtain ⟨hw, -, hp⟩ := h.spelled o ho
    rw [List.drop_nil] at hp
    exact hw.ne_nil (List.prefix_nil.1 hp)
  · rintro rfl
    refine ⟨?_, .nil, ?_⟩
    · intro o ho
      cases ho
    · intro k _
      rw [List.drop_nil]
      exact not_begins_nil

/-- Where no statement begins, the scan is that of the rest. -/
theorem isScan_skip {base : Nat} {c : Char} {cs : List Char} {found : List Occurrence}
    (hno : ¬ Begins (c :: cs)) : IsScan base (c :: cs) found ↔ IsScan (base + 1) cs found := by
  have hdrop : ∀ n, base + 1 ≤ n → (c :: cs).drop (n - base) = cs.drop (n - (base + 1)) := by
    intro n hn
    rw [show n - base = (n - (base + 1)) + 1 by omega, List.drop_succ_cons]
  constructor
  · intro h
    refine ⟨?_, h.ordered, ?_⟩
    · intro o ho
      obtain ⟨hw, hle, hp⟩ := h.spelled o ho
      have hne : o.offset ≠ base := by
        intro heq
        rw [heq, Nat.sub_self, List.drop_zero] at hp
        exact hno ⟨_, _, hw, hp⟩
      have hlt : base + 1 ≤ o.offset := by omega
      exact ⟨hw, hlt, hdrop o.offset hlt ▸ hp⟩
    · intro k hk
      have := h.missed (k + 1) fun o ho => by
        rcases hk o ho with hb | hb <;> omega
      rwa [List.drop_succ_cons] at this
  · intro h
    refine ⟨?_, h.ordered, ?_⟩
    · intro o ho
      obtain ⟨hw, hle, hp⟩ := h.spelled o ho
      exact ⟨hw, by omega, (hdrop o.offset hle).symm ▸ hp⟩
    · intro k hk
      cases k with
      | zero => exact hno
      | succ k =>
          rw [List.drop_succ_cons]
          refine h.missed k fun o ho => ?_
          rcases hk o ho with hb | hb <;> omega

/-- The statement that begins where the text does is the first of the scan. -/
theorem IsScan.exists_eq_cons {base : Nat} {s : Statement} {front rest : List Char}
    {found : List Occurrence} (hw : s.Written front) (h : IsScan base (front ++ rest) found) :
    ∃ later, found = ⟨base, front, s⟩ :: later := by
  -- the first place of the text lies in one of the occurrences, so it is not free
  have hcover : ∃ o ∈ found, ¬ (base + 0 < o.offset ∨ o.stop ≤ base + 0) := by
    refine Classical.byContradiction fun hnot => h.missed 0 ?_ (begins_append hw rest)
    intro o ho
    exact Classical.byContradiction fun hc => hnot ⟨o, ho, hc⟩
  obtain ⟨o, ho, hcov⟩ := hcover
  obtain ⟨hwo, hle, hp⟩ := h.spelled o ho
  have hoff : o.offset = base := by omega
  have heq : o = ⟨base, front, s⟩ := by
    rw [hoff, Nat.sub_self, List.drop_zero] at hp
    obtain ⟨hs, hf⟩ := written_unique hwo hw hp (List.prefix_append front rest)
    cases o
    simp_all
  subst heq
  cases found with
  | nil => cases ho
  | cons first later =>
      rcases List.mem_cons.1 ho with rfl | hlater
      · exact ⟨later, rfl⟩
      · -- an occurrence before it would end where the text begins
        obtain ⟨hwf, hlef, -⟩ := h.spelled first List.mem_cons_self
        have hend := (List.pairwise_cons.1 h.ordered).1 _ hlater
        have := Occurrence.offset_lt_stop hwf
        simp only at hend
        omega

/-- Where a statement begins, it is the first of the scan, and the others are a scan of the rest. -/
theorem isScan_take {base : Nat} {s : Statement} {front rest : List Char}
    {found : List Occurrence} (hw : s.Written front) :
    IsScan base (front ++ rest) found ↔
      ∃ later, found = ⟨base, front, s⟩ :: later ∧ IsScan (base + front.length) rest later := by
  have hdrop : ∀ n, base + front.length ≤ n →
      (front ++ rest).drop (n - base) = rest.drop (n - (base + front.length)) := by
    intro n hn
    rw [show n - base = front.length + (n - (base + front.length)) by omega,
      List.drop_length_add_append]
  constructor
  · intro h
    obtain ⟨later, rfl⟩ := h.exists_eq_cons hw
    obtain ⟨hfirst, hord⟩ := List.pairwise_cons.1 h.ordered
    refine ⟨later, rfl, ?_, hord, ?_⟩
    · intro o ho
      obtain ⟨hwo, -, hp⟩ := h.spelled o (List.mem_cons_of_mem _ ho)
      have hle : base + front.length ≤ o.offset := hfirst o ho
      exact ⟨hwo, hle, hdrop o.offset hle ▸ hp⟩
    · intro k hk
      have := h.missed (front.length + k) fun o ho => by
        rcases List.mem_cons.1 ho with rfl | ho
        · exact Or.inr (by simp only [Occurrence.stop]; omega)
        · rcases hk o ho with hb | hb <;> omega
      rwa [List.drop_length_add_append] at this
  · rintro ⟨later, rfl, h⟩
    refine ⟨?_, ?_, ?_⟩
    · intro o ho
      rcases List.mem_cons.1 ho with rfl | ho
      · refine ⟨hw, Nat.le_refl base, ?_⟩
        simp only [Nat.sub_self, List.drop_zero]
        exact List.prefix_append front rest
      · obtain ⟨hwo, hle, hp⟩ := h.spelled o ho
        exact ⟨hwo, by omega, (hdrop o.offset hle).symm ▸ hp⟩
    · exact List.pairwise_cons.2 ⟨fun o ho => (h.spelled o ho).2.1, h.ordered⟩
    · intro k hk
      rcases hk ⟨base, front, s⟩ List.mem_cons_self with hb | hb
      · simp only at hb
        omega
      · have hle : front.length ≤ k := by
          simp only [Occurrence.stop] at hb
          omega
        obtain ⟨n, rfl⟩ := Nat.exists_eq_add_of_le hle
        rw [List.drop_length_add_append]
        refine h.missed n fun o ho => ?_
        rcases hk o (List.mem_cons_of_mem _ ho) with hb | hb <;> omega

/-! ## The whole scan -/

/-- The conditions on a scan leave one possibility, and `scan` finds it. -/
theorem isScan_iff {base : Nat} {cs : List Char} {found : List Occurrence} :
    IsScan base cs found ↔ found = scan base cs := by
  fun_induction scan base cs generalizing found with
  | case1 base => exact isScan_nil
  | case2 base c cs s rest h size =>
      rename_i ih
      obtain ⟨front, hw, heq⟩ := read?_eq_some_iff.1 h
      have hsize : size = front.length := by
        simp only [size, heq, List.length_append, Nat.add_sub_cancel]
      have hfront : (c :: cs).take size = front := by
        rw [hsize, heq, List.take_left]
      rw [hfront, heq, isScan_take hw, ← hsize]
      constructor
      · rintro ⟨later, rfl, hlater⟩
        rw [ih.1 hlater]
      · rintro rfl
        exact ⟨_, rfl, ih.2 rfl⟩
  | case3 base c cs h ih =>
      have hno : ¬ Begins (c :: cs) := by
        rw [begins_iff]
        rintro ⟨s, rest, hs⟩
        rw [h] at hs
        cases hs
      exact (isScan_skip hno).trans ih

/-- A statement that is spelled at the front of a text is found, and the scan goes on behind it. -/
theorem scan_append {s : Statement} {front : List Char} (h : s.Written front) (base : Nat)
    (rest : List Char) :
    scan base (front ++ rest) = ⟨base, front, s⟩ :: scan (base + front.length) rest :=
  (isScan_iff.1 ((isScan_take h).2 ⟨_, rfl, isScan_iff.2 rfl⟩)).symm

/-- Where no statement begins, the scan goes on at the next character. -/
theorem scan_cons_of_not_begins {c : Char} {cs : List Char} (h : ¬ Begins (c :: cs)) (base : Nat) :
    scan base (c :: cs) = scan (base + 1) cs :=
  (isScan_iff.1 ((isScan_skip h).2 (isScan_iff.2 rfl))).symm

/-- What is found in a text is spelled as it says. -/
theorem written_of_mem_scan {base : Nat} {cs : List Char} {o : Occurrence}
    (h : o ∈ scan base cs) : o.statement.Written o.written :=
  ((isScan_iff.2 rfl : IsScan base cs (scan base cs)).spelled o h).1

/-- What goes from one statement to the next, and on where no statement begins, goes through the
whole text. -/
@[elab_as_elim]
theorem scan_induct {motive : List Char → Prop} (nil : motive [])
    (take : ∀ (s : Statement) (front rest : List Char), s.Written front → motive rest →
      motive (front ++ rest))
    (skip : ∀ (c : Char) (cs : List Char), ¬ Begins (c :: cs) → motive cs → motive (c :: cs))
    (cs : List Char) : motive cs := by
  cases cs with
  | nil => exact nil
  | cons c cs =>
      by_cases h : Begins (c :: cs)
      · obtain ⟨s, front, hw, rest, hcs⟩ := h
        have hshorter : rest.length < (c :: cs).length := by
          have hpos := List.length_pos_iff.2 hw.ne_nil
          rw [← hcs, List.length_append]
          omega
        rw [← hcs]
        exact take s front rest hw (scan_induct nil take skip rest)
      · exact skip c cs h (scan_induct nil take skip cs)
termination_by cs.length
decreasing_by
  · exact hshorter
  · exact Nat.lt_succ_self cs.length

/-- What is kept of a statement that is found in `text`. -/
def Occurrence.toImport (text : String) (o : Occurrence) : Import where
  names := o.statement.clause.names
  specifier := String.ofList o.statement.path
  line := o.line text.toList (linesOf text.toList)

end Statement

end ModuleGraph
