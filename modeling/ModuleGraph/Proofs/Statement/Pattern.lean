import Mathlib.Data.List.MinMax
import ModuleGraph.Proofs.Text.Run
import ModuleGraph.Statement

/-!
# Patterns and the ways to read them

A pattern is a regular expression whose repetitions are runs of characters of one class. A `Reading`
of a pattern is not only what is read but also how: which side of an alternative, whether an
optional part is there, and where each part ends. `Reads` says that a reading is one of the front of
a text.

`ways` lists the readings of the front of a text in the order in which a matcher that comes back on
its choices tries them: the first side of an alternative before the second, and of a run the longest
before the shorter ones, or the other way round if it is lazy. Both lists hold the same, all
readings (`mem_ways_iff`). A `Choice` is any rule that takes a reading where there is one. Three of
them are the first of the greedy ways, the first of the lazy ways, and the longest.

What a choice takes is settled where there is one reading only. This hangs on what comes behind a
pattern: a run of blanks can be read in one way if what follows it is no blank. `UniqueBefore` says
so of a pattern and what may follow it, and goes from the parts of a sequence to the whole.
-/

namespace ModuleGraph

open Text

/-- A pattern over characters. -/
inductive Pattern where
  /-- These characters. -/
  | word (cs : List Char)
  /-- One character of a class. -/
  | one (p : Char → Bool)
  /-- Characters of a class, at least so many. -/
  | run (least : Nat) (p : Char → Bool)
  | seq (first second : Pattern)
  | either (first second : Pattern)
  | maybe (inner : Pattern)

namespace Pattern

/-! ## Readings -/

/-- How a pattern is read: what stands for each of its parts. -/
@[reducible]
def Reading : Pattern → Type
  | word _ => Unit
  | one _ => Char
  | run _ _ => List Char
  | seq r s => r.Reading × s.Reading
  | either r s => r.Reading ⊕ s.Reading
  | maybe r => Option r.Reading

/-- What is read. -/
def text : (r : Pattern) → r.Reading → List Char
  | word cs, _ => cs
  | one _, c => [c]
  | run _ _, cs => cs
  | seq r s, t => r.text t.1 ++ s.text t.2
  | either r _, .inl t => r.text t
  | either _ s, .inr t => s.text t
  | maybe r, some t => r.text t
  | maybe _, none => []

/-- The characters are in their classes, and the runs are long enough. -/
def Valid : (r : Pattern) → r.Reading → Prop
  | word _, _ => True
  | one p, c => p c = true
  | run least p, cs => least ≤ cs.length ∧ ∀ c ∈ cs, p c = true
  | seq r s, t => r.Valid t.1 ∧ s.Valid t.2
  | either r _, .inl t => r.Valid t
  | either _ s, .inr t => s.Valid t
  | maybe r, some t => r.Valid t
  | maybe _, none => True

/-- A reading of the front of `cs`, and the rest of `cs`. -/
structure Reads (r : Pattern) (cs : List Char) (way : r.Reading × List Char) : Prop where
  valid : r.Valid way.1
  eq_append : cs = r.text way.1 ++ way.2

section Parts

variable {r s : Pattern} {t : r.Reading} {u : s.Reading} {cs rest : List Char}

/-- The second part is read from where the first one ends. -/
theorem reads_seq_iff :
    (seq r s).Reads cs ((t, u), rest) ↔ ∃ mid, r.Reads cs (t, mid) ∧ s.Reads mid (u, rest) := by
  constructor
  · rintro ⟨⟨ht, hu⟩, hcs⟩
    rw [text, List.append_assoc] at hcs
    exact ⟨s.text u ++ rest, ⟨ht, hcs⟩, hu, rfl⟩
  · rintro ⟨mid, ⟨ht, hcs⟩, hu, hmid⟩
    exact ⟨⟨ht, hu⟩, by rw [hcs, hmid, text, List.append_assoc]⟩

theorem reads_inl_iff : (either r s).Reads cs (.inl t, rest) ↔ r.Reads cs (t, rest) :=
  ⟨fun h => ⟨h.valid, h.eq_append⟩, fun h => ⟨h.valid, h.eq_append⟩⟩

theorem reads_inr_iff : (either r s).Reads cs (.inr u, rest) ↔ s.Reads cs (u, rest) :=
  ⟨fun h => ⟨h.valid, h.eq_append⟩, fun h => ⟨h.valid, h.eq_append⟩⟩

theorem reads_some_iff : (maybe r).Reads cs (some t, rest) ↔ r.Reads cs (t, rest) :=
  ⟨fun h => ⟨h.valid, h.eq_append⟩, fun h => ⟨h.valid, h.eq_append⟩⟩

theorem reads_none_iff : (maybe r).Reads cs (none, rest) ↔ rest = cs :=
  ⟨fun h => h.eq_append.symm, fun h => ⟨trivial, h.symm⟩⟩

end Parts

/-! ## All ways, in order of preference -/

/-- The runs of a class at the front of a text with what is behind them, the shortest first. -/
def runs (p : Char → Bool) : List Char → List (List Char × List Char)
  | [] => [([], [])]
  | c :: cs => ([], c :: cs) :: if p c then (runs p cs).map fun way => (c :: way.1, way.2) else []

/-- The ways to read the front of a text, the preferred ones first. -/
def ways (lazy : Bool) : (r : Pattern) → List Char → List (r.Reading × List Char)
  | word w, cs => ((Statement.after? w cs).map ((), ·)).toList
  | one _, [] => []
  | one p, c :: cs => if p c then [(c, cs)] else []
  | run least p, cs =>
    let enough := (runs p cs).filter (least ≤ ·.1.length)
    if lazy then enough else enough.reverse
  | seq r s, cs =>
    (ways lazy r cs).flatMap fun way => (ways lazy s way.2).map fun next => ((way.1, next.1), next.2)
  | either r s, cs =>
    (ways lazy r cs).map (fun way => (.inl way.1, way.2)) ++
      (ways lazy s cs).map fun way => (.inr way.1, way.2)
  | maybe r, cs =>
    let there := (ways lazy r cs).map fun way => (some way.1, way.2)
    if lazy then (none, cs) :: there else there ++ [(none, cs)]

theorem nil_mem_runs_iff {p : Char → Bool} {cs rest : List Char} :
    ([], rest) ∈ runs p cs ↔ rest = cs := by
  cases cs with
  | nil => simp [runs]
  | cons c cs => simp [runs]

theorem cons_mem_runs_iff {p : Char → Bool} {c d : Char} {cs front rest : List Char} :
    (d :: front, rest) ∈ runs p (c :: cs) ↔ d = c ∧ p c = true ∧ (front, rest) ∈ runs p cs := by
  simp only [runs, List.mem_cons, Prod.mk.injEq, reduceCtorEq, false_and, false_or]
  constructor
  · intro hmem
    split at hmem
    · next hc =>
      obtain ⟨way, hway, heq⟩ := List.mem_map.1 hmem
      cases heq
      exact ⟨rfl, hc, hway⟩
    · cases hmem
  · rintro ⟨rfl, hc, hmem⟩
    rw [if_pos hc]
    exact List.mem_map.2 ⟨(front, rest), hmem, rfl⟩

theorem mem_runs_iff {p : Char → Bool} {cs front rest : List Char} :
    (front, rest) ∈ runs p cs ↔ (∀ c ∈ front, p c = true) ∧ cs = front ++ rest := by
  induction front generalizing cs with
  | nil =>
      rw [nil_mem_runs_iff, List.nil_append, eq_comm]
      exact (and_iff_right (List.forall_mem_nil _)).symm
  | cons d front ih =>
      cases cs with
      | nil => simp [runs]
      | cons c cs =>
          rw [cons_mem_runs_iff, ih, List.forall_mem_cons, List.cons_append, List.cons.injEq]
          constructor
          · rintro ⟨rfl, hd, hfront, hcs⟩
            exact ⟨⟨hd, hfront⟩, rfl, hcs⟩
          · rintro ⟨⟨hd, hfront⟩, rfl, hcs⟩
            exact ⟨rfl, hd, hfront, hcs⟩

/-- Whether long or short runs are preferred counts for the order only. -/
theorem mem_ways_run_iff {lazy : Bool} {least : Nat} {p : Char → Bool} {cs front rest : List Char} :
    (front, rest) ∈ ways lazy (run least p) cs ↔
      (front, rest) ∈ runs p cs ∧ least ≤ front.length := by
  have hfilter : (front, rest) ∈ (runs p cs).filter (least ≤ ·.1.length) ↔
      (front, rest) ∈ runs p cs ∧ least ≤ front.length := by
    rw [List.mem_filter, decide_eq_true_iff]
  cases lazy with
  | true => exact hfilter
  | false => exact List.mem_reverse.trans hfilter

theorem mem_ways_maybe_iff {lazy : Bool} {r : Pattern} {cs : List Char}
    {way : Option r.Reading × List Char} :
    way ∈ ways lazy (maybe r) cs ↔
      way ∈ (ways lazy r cs).map (fun way => (some way.1, way.2)) ∨ way = (none, cs) := by
  cases lazy with
  | true => exact List.mem_cons.trans or_comm
  | false => exact List.mem_append.trans (or_congr Iff.rfl List.mem_singleton)

/-- The ways are all readings, whichever are preferred. -/
theorem mem_ways_iff {lazy : Bool} {r : Pattern} {cs : List Char} {way : r.Reading × List Char} :
    way ∈ ways lazy r cs ↔ r.Reads cs way := by
  induction r generalizing cs with
  | word w =>
      obtain ⟨⟨⟩, rest⟩ := way
      simp only [ways, Option.mem_toList, Option.map_eq_some_iff, Prod.mk.injEq, true_and,
        exists_eq_right]
      constructor
      · intro h
        exact ⟨trivial, Statement.eq_append_of_after? h⟩
      · rintro ⟨-, rfl⟩
        exact Statement.after?_append w rest
  | one p =>
      obtain ⟨d, rest⟩ := way
      cases cs with
      | nil => exact iff_of_false List.not_mem_nil fun h => List.cons_ne_nil _ _ h.eq_append.symm
      | cons c cs =>
          simp only [ways]
          constructor
          · intro h
            split at h
            · next hc =>
              cases List.mem_singleton.1 h
              exact ⟨hc, rfl⟩
            · cases h
          · rintro ⟨hd, heq⟩
            have hd : p d = true := hd
            have heq : c :: cs = d :: rest := heq
            cases heq
            rw [if_pos hd]
            exact List.mem_singleton.2 rfl
  | run least p =>
      obtain ⟨front, rest⟩ := way
      rw [mem_ways_run_iff, mem_runs_iff]
      constructor
      · rintro ⟨⟨hp, heq⟩, hle⟩
        exact ⟨⟨hle, hp⟩, heq⟩
      · rintro ⟨⟨hle, hp⟩, heq⟩
        exact ⟨⟨hp, heq⟩, hle⟩
  | seq r s ihr ihs =>
      obtain ⟨⟨t, u⟩, rest⟩ := way
      simp only [ways, List.mem_flatMap, List.mem_map, Prod.mk.injEq]
      rw [reads_seq_iff]
      constructor
      · rintro ⟨⟨_, mid⟩, hfirst, ⟨_, _⟩, hnext, ⟨rfl, rfl⟩, rfl⟩
        exact ⟨mid, ihr.1 hfirst, ihs.1 hnext⟩
      · rintro ⟨mid, hfirst, hnext⟩
        exact ⟨(t, mid), ihr.2 hfirst, (u, rest), ihs.2 hnext, ⟨rfl, rfl⟩, rfl⟩
  | either r s ihr ihs =>
      obtain ⟨t | u, rest⟩ := way
      · rw [reads_inl_iff, ← ihr]
        simp [ways]
      · rw [reads_inr_iff, ← ihs]
        simp [ways]
  | maybe r ih =>
      obtain ⟨_ | t, rest⟩ := way
      · rw [reads_none_iff, mem_ways_maybe_iff]
        simp
      · rw [reads_some_iff, ← ih, mem_ways_maybe_iff]
        simp

theorem ways_ne_nil {lazy : Bool} {r : Pattern} {cs : List Char} {way : r.Reading × List Char}
    (h : r.Reads cs way) : ways lazy r cs ≠ [] :=
  List.ne_nil_of_mem (mem_ways_iff.2 h)

/-! ## Taking one of the ways -/

/-- A rule that takes a reading of the front of a text wherever there is one. -/
structure Choice (r : Pattern) where
  pick : List Char → Option (r.Reading × List Char)
  reads : ∀ {cs way}, pick cs = some way → r.Reads cs way
  takes : ∀ {cs way}, r.Reads cs way → pick cs ≠ none

/-- The first of the ways. -/
def Choice.first (lazy : Bool) (r : Pattern) : Choice r where
  pick cs := (ways lazy r cs).head?
  reads h := mem_ways_iff.1 (List.mem_of_head? h)
  takes h hnone := ways_ne_nil h (List.head?_eq_none_iff.1 hnone)

/-- The first way that a greedy matcher finds. -/
def Choice.leftmostFirst (r : Pattern) : Choice r :=
  .first false r

/-- The first way that a matcher finds if all repetitions are lazy. -/
def Choice.lazy (r : Pattern) : Choice r :=
  .first true r

/-- The way that reads most. -/
def Choice.leftmostLongest (r : Pattern) : Choice r where
  pick cs := (ways false r cs).argmax fun way => (r.text way.1).length
  reads h := mem_ways_iff.1 (List.argmax_mem h)
  takes h hnone := ways_ne_nil h (List.argmax_eq_none.1 hnone)

/-! ## One way only -/

/-- The front of a text is read in one way at most, if `follows` holds of what is left. -/
def UniqueBefore (r : Pattern) (follows : List Char → Prop) : Prop :=
  ∀ cs way way', r.Reads cs way → r.Reads cs way' → follows way.2 → follows way'.2 → way = way'

variable {follows : List Char → Prop} {r s : Pattern}

theorem uniqueBefore_word (w : List Char) : (word w).UniqueBefore follows := by
  rintro cs ⟨⟨⟩, rest⟩ ⟨⟨⟩, rest'⟩ h h' - -
  have heq : w ++ rest = w ++ rest' := h.eq_append.symm.trans h'.eq_append
  rw [List.append_cancel_left heq]

theorem uniqueBefore_one (p : Char → Bool) : (one p).UniqueBefore follows := by
  rintro cs ⟨c, rest⟩ ⟨c', rest'⟩ h h' - -
  have heq : c :: rest = c' :: rest' := h.eq_append.symm.trans h'.eq_append
  cases heq
  rfl

/-- A run ends where the text does not go on with it. -/
theorem uniqueBefore_run (least : Nat) (p : Char → Bool) :
    (run least p).UniqueBefore (Stops p) := by
  rintro cs ⟨front, rest⟩ ⟨front', rest'⟩ h h' hstop hstop'
  have heq : front ++ rest = front' ++ rest' := h.eq_append.symm.trans h'.eq_append
  have htake := takeWhile_append_of_stops h.valid.2 hstop
  have hdrop := dropWhile_append_of_stops h.valid.2 hstop
  rw [heq, takeWhile_append_of_stops h'.valid.2 hstop'] at htake
  rw [heq, dropWhile_append_of_stops h'.valid.2 hstop'] at hdrop
  exact Prod.ext htake.symm hdrop.symm

/-- A sequence is read in one way if its parts are, where `between` holds of all that the second
part is read from. -/
theorem uniqueBefore_seq (between : List Char → Prop) (hr : r.UniqueBefore between)
    (hs : s.UniqueBefore follows)
    (hbetween : ∀ cs way, s.Reads cs way → follows way.2 → between cs) :
    (seq r s).UniqueBefore follows := by
  rintro cs ⟨⟨t, u⟩, rest⟩ ⟨⟨t', u'⟩, rest'⟩ h h' hrest hrest'
  obtain ⟨mid, ht, hu⟩ := reads_seq_iff.1 h
  obtain ⟨mid', ht', hu'⟩ := reads_seq_iff.1 h'
  cases hr cs (t, mid) (t', mid') ht ht' (hbetween _ _ hu hrest) (hbetween _ _ hu' hrest')
  cases hs mid (u, rest) (u', rest') hu hu' hrest hrest'
  rfl

/-- Where the first part is read in one way whatever follows, only the second part counts. -/
theorem uniqueBefore_seq_of_always (hr : r.UniqueBefore fun _ => True)
    (hs : s.UniqueBefore follows) : (seq r s).UniqueBefore follows :=
  uniqueBefore_seq _ hr hs fun _ _ _ _ => trivial

end Pattern

end ModuleGraph
