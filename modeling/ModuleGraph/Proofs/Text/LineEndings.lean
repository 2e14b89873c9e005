import ModuleGraph.Proofs.Splitting
import ModuleGraph.Proofs.Text.Trim

/-!
# Two ways to end a line

`crlf` writes a carriage return before every newline of a text. Whatever takes a text apart by
classes of characters goes on to do so in the same places, if no class tells the two characters
apart: the parts of the longer text are those of the shorter one, written out in the same way. So it
is with runs (`takeWhile_crlf`, `dropWhile_crlf`), with pieces between separators (`splitOn_crlf`)
and with what is left when blanks are cut off (`trim_crlf`), since both characters are blank.

Lines are pieces between newlines, so here the two do differ: every line but the last grows by a
carriage return at its end (`splitOn_newline_crlf`).
-/

namespace ModuleGraph.Text

/-- The text with a carriage return before every newline. -/
def crlf (cs : List Char) : List Char :=
  cs.flatMap fun c => if c = '\n' then ['\r', '\n'] else [c]

/-- The same for a string. -/
def withReturns (text : String) : String :=
  String.ofList (crlf text.toList)

variable {cs before after : List Char} {c : Char}

theorem toList_withReturns (text : String) : (withReturns text).toList = crlf text.toList :=
  String.toList_ofList

theorem withReturns_ofList (cs : List Char) :
    withReturns (String.ofList cs) = String.ofList (crlf cs) := by
  rw [withReturns, String.toList_ofList]

theorem crlf_nil : crlf [] = [] := rfl

theorem crlf_newline (cs : List Char) : crlf ('\n' :: cs) = '\r' :: '\n' :: crlf cs := rfl

theorem crlf_cons (h : c ≠ '\n') (cs : List Char) : crlf (c :: cs) = c :: crlf cs := by
  rw [crlf, List.flatMap_cons, if_neg h]
  rfl

theorem crlf_append (before after : List Char) :
    crlf (before ++ after) = crlf before ++ crlf after :=
  List.flatMap_append

theorem crlf_eq_self (h : '\n' ∉ cs) : crlf cs = cs := by
  induction cs with
  | nil => rfl
  | cons c cs ih =>
      obtain ⟨hc, hcs⟩ := not_or.1 (mt List.mem_cons.2 h)
      rw [crlf_cons (Ne.symm hc), ih hcs]

theorem crlf_eq_nil_iff : crlf cs = [] ↔ cs = [] := by
  cases cs with
  | nil => exact Iff.rfl
  | cons c cs =>
      by_cases hc : c = '\n'
      · rw [hc, crlf_newline]
        exact iff_of_false (List.cons_ne_nil _ _) (List.cons_ne_nil _ _)
      · rw [crlf_cons hc]
        exact iff_of_false (List.cons_ne_nil _ _) (List.cons_ne_nil _ _)

theorem isEmpty_crlf (cs : List Char) : (crlf cs).isEmpty = cs.isEmpty := by
  rw [Bool.eq_iff_iff, List.isEmpty_iff, List.isEmpty_iff, crlf_eq_nil_iff]

theorem withReturns_eq_self {text : String} (h : '\n' ∉ text.toList) : withReturns text = text := by
  rw [withReturns, crlf_eq_self h, String.ofList_toList]

/-- What is not a carriage return was there before. -/
theorem mem_crlf_iff (h : c ≠ '\r') : c ∈ crlf cs ↔ c ∈ cs := by
  rw [crlf, List.mem_flatMap]
  constructor
  · rintro ⟨d, hd, hc⟩
    split at hc
    · next hnewline =>
      rcases List.mem_cons.1 hc with hc | hc
      · exact absurd hc h
      · rwa [List.mem_singleton.1 hc, ← hnewline]
    · rwa [List.mem_singleton.1 hc]
  · intro hc
    refine ⟨c, hc, ?_⟩
    split
    · next hnewline => exact hnewline ▸ List.mem_cons_of_mem _ List.mem_cons_self
    · exact List.mem_cons_self

theorem head?_crlf_iff (hreturn : c ≠ '\r') (hnewline : c ≠ '\n') :
    (crlf cs).head? = some c ↔ cs.head? = some c := by
  cases cs with
  | nil => exact Iff.rfl
  | cons d cs =>
      by_cases hd : d = '\n'
      · rw [hd, crlf_newline, List.head?_cons, List.head?_cons, Option.some_inj, Option.some_inj]
        exact iff_of_false hreturn.symm hnewline.symm
      · rw [crlf_cons hd, List.head?_cons, List.head?_cons]

theorem count_newline_crlf (cs : List Char) : (crlf cs).count '\n' = cs.count '\n' := by
  induction cs with
  | nil => rfl
  | cons c cs ih =>
      by_cases hc : c = '\n'
      · rw [hc, crlf_newline, List.count_cons_of_ne (by decide), List.count_cons_self,
          List.count_cons_self, ih]
      · rw [crlf_cons hc, List.count_cons_of_ne hc, List.count_cons_of_ne hc, ih]

/-- The front of a text is found again behind its own carriage returns. -/
theorem take_length_crlf (n : Nat) (cs : List Char) :
    (crlf cs).take (crlf (cs.take n)).length = crlf (cs.take n) := by
  have hcs : crlf cs = crlf (cs.take n) ++ crlf (cs.drop n) := by
    rw [← crlf_append, List.take_append_drop]
  rw [hcs, List.take_left]

/-! ## Runs -/

section Runs

variable {p : Char → Bool} (hp : p '\r' = p '\n')

include hp

theorem takeWhile_crlf (cs : List Char) : (crlf cs).takeWhile p = crlf (cs.takeWhile p) := by
  induction cs with
  | nil => rfl
  | cons c cs ih =>
      by_cases hc : c = '\n'
      · rw [hc, crlf_newline, List.takeWhile_cons, List.takeWhile_cons, List.takeWhile_cons, hp, ih]
        split
        · rfl
        · rfl
      · rw [crlf_cons hc, List.takeWhile_cons, List.takeWhile_cons, ih]
        split
        · exact (crlf_cons hc _).symm
        · rfl

theorem dropWhile_crlf (cs : List Char) : (crlf cs).dropWhile p = crlf (cs.dropWhile p) := by
  induction cs with
  | nil => rfl
  | cons c cs ih =>
      by_cases hc : c = '\n'
      · rw [hc, crlf_newline, List.dropWhile_cons, List.dropWhile_cons, List.dropWhile_cons, hp, ih]
        split
        · rfl
        · rfl
      · rw [crlf_cons hc, List.dropWhile_cons, List.dropWhile_cons, ih]
        split
        · rfl
        · exact (crlf_cons hc _).symm

end Runs

/-- What ends a run that newlines go on with is no newline. -/
theorem dropWhile_crlf_of_eq_cons {p : Char → Bool} (hreturn : p '\r' = true)
    (hnewline : p '\n' = true) {rest : List Char} (h : cs.dropWhile p = c :: rest) :
    (crlf cs).dropWhile p = c :: crlf rest := by
  have hc : c ≠ '\n' := by
    rintro rfl
    have hstop : Stops p ('\n' :: rest) := h ▸ stops_dropWhile p cs
    rw [stops_cons, hnewline] at hstop
    cases hstop
  rw [dropWhile_crlf (hreturn.trans hnewline.symm), h, crlf_cons hc]

/-! ## Pieces -/

theorem splitOn_crlf {a : Char} (hreturn : a ≠ '\r') (hnewline : a ≠ '\n') (cs : List Char) :
    (crlf cs).splitOn a = (cs.splitOn a).map crlf := by
  induction cs using splitOn_induct (a := a) with
  | last piece hpiece =>
      rw [List.splitOn_eq_singleton (mt (mem_crlf_iff hreturn).1 hpiece), List.map_singleton]
  | next piece rest hpiece ih =>
      rw [crlf_append, crlf_cons hnewline,
        List.splitOn_append_cons_self_of_not_mem (mt (mem_crlf_iff hreturn).1 hpiece), ih,
        List.map_cons]

/-- A line that is followed by another one has a carriage return at its end. -/
theorem splitOn_newline_crlf {piece : List Char} (h : '\n' ∉ piece) (rest : List Char) :
    (crlf (piece ++ '\n' :: rest)).splitOn '\n' =
      (piece ++ ['\r']) :: (crlf rest).splitOn '\n' := by
  have hline : '\n' ∉ piece ++ ['\r'] := by simp [h]
  rw [crlf_append, crlf_eq_self h, crlf_newline, List.append_cons,
    List.splitOn_append_cons_self_of_not_mem hline]

/-! ## Blanks -/

theorem isBlank_of_mem_crlf (h : ∀ c ∈ cs, isBlank c = true) : ∀ c ∈ crlf cs, isBlank c = true := by
  intro c hc
  by_cases hreturn : c = '\r'
  · rw [hreturn]
    decide
  · exact h c ((mem_crlf_iff hreturn).1 hc)

theorem stops_isBlank_crlf (h : Stops isBlank cs) : Stops isBlank (crlf cs) := by
  cases cs with
  | nil => exact stops_nil isBlank
  | cons c cs =>
      have hc : c ≠ '\n' := by
        rintro rfl
        exact absurd (stops_cons.1 h) (by decide)
      rw [crlf_cons hc]
      exact stops_cons.2 (stops_cons.1 h)

theorem stops_isBlank_reverse_crlf (h : Stops isBlank cs.reverse) :
    Stops isBlank (crlf cs).reverse := by
  rcases List.eq_nil_or_concat cs with rfl | ⟨front, c, rfl⟩
  · exact stops_nil isBlank
  · rw [List.concat_eq_append, List.reverse_append] at h
    have hc : c ≠ '\n' := by
      rintro rfl
      exact absurd (stops_cons.1 h) (by decide)
    rw [List.concat_eq_append, crlf_append, crlf_cons hc, List.reverse_append]
    exact stops_cons.2 (stops_cons.1 h)

/-- Blanks and carriage returns alike are cut off, and what is left keeps its newlines. -/
theorem trim_crlf (cs : List Char) : trim (crlf cs) = crlf (trim cs) := by
  obtain ⟨before, after, hbefore, hafter, hcs⟩ := exists_eq_append_trim cs
  calc trim (crlf cs) = trim (crlf before ++ (crlf (trim cs) ++ crlf after)) := by
        rw [← crlf_append, ← crlf_append, ← hcs]
    _ = crlf (trim cs) :=
        trim_append_of_stops (isBlank_of_mem_crlf hbefore) (isBlank_of_mem_crlf hafter)
          (stops_isBlank_crlf (stops_trim cs)) (stops_isBlank_reverse_crlf (stops_reverse_trim cs))

end ModuleGraph.Text
