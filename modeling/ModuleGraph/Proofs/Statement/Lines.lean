import Mathlib.Data.List.TakeDrop
import ModuleGraph.Proofs.Splitting
import ModuleGraph.Proofs.Statement.Scan

/-!
# The line that is reported for a statement

A line is looked for by what is written on it, not by where the statement stands. `IsFirstLine` says
what such a search finds. Whether it finds anything can be told from the statement alone: what holds
a newline is written on no line, and what holds none is written on the line that it starts on
(`findIdx?_linesOf_eq_none_iff`). So the line where a statement starts is reported for a statement
that spans lines, and for any other it is the last one that can be: a copy of the statement before
it is found in its place, even in the middle of a longer line.
-/

namespace ModuleGraph

namespace Statement

/-- `number`, counted from one, is that of the first of `lines` in which `part` is written. -/
def IsFirstLine (part : List Char) (lines : List (List Char)) (number : Nat) : Prop :=
  ∃ before line after, lines = before ++ line :: after ∧ number = before.length + 1 ∧
    part <:+: line ∧ ∀ earlier ∈ before, ¬ part <:+: earlier

variable {part before after : List Char} {lines : List (List Char)} {index : Nat}

/-! ## Looking for a line -/

theorem isFirstLine_of_findIdx? (h : lines.findIdx? (occursIn part) = some index) :
    IsFirstLine part lines (index + 1) := by
  obtain ⟨hlt, hfound, hearlier⟩ := List.findIdx?_eq_some_iff_getElem.1 h
  refine ⟨lines.take index, lines[index], lines.drop (index + 1), ?_, ?_, occursIn_iff.1 hfound, ?_⟩
  · rw [← List.drop_eq_getElem_cons hlt, List.take_append_drop]
  · rw [List.length_take_of_le (Nat.le_of_lt hlt)]
  · intro earlier hmem hpart
    obtain ⟨k, hk, rfl⟩ := List.mem_take_iff_getElem.1 hmem
    exact hearlier k (by omega) (occursIn_iff.2 hpart)

/-- No line before one in which `part` is written is passed over. -/
theorem index_le_of_findIdx? (h : lines.findIdx? (occursIn part) = some index) {k : Nat}
    {line : List Char} (hline : lines[k]? = some line) (hpart : part <:+: line) : index ≤ k := by
  obtain ⟨hlt, hfound, hearlier⟩ := List.findIdx?_eq_some_iff_getElem.1 h
  obtain ⟨_, rfl⟩ := List.getElem?_eq_some_iff.1 hline
  refine Nat.le_of_not_lt fun hk => ?_
  exact hearlier k hk (occursIn_iff.2 hpart)

/-- What holds no newline is written on the line that it starts on. -/
theorem exists_line_of_single (h : '\n' ∉ part) (before after : List Char) :
    ∃ line, (linesOf (before ++ (part ++ after)))[before.count '\n']? = some line ∧
      part <:+: line :=
  exists_getElem?_splitOn h before after

/-- What holds a newline is written on no line. -/
theorem findIdx?_linesOf_eq_none (h : '\n' ∈ part) (text : List Char) :
    (linesOf text).findIdx? (occursIn part) = none := by
  rw [List.findIdx?_eq_none_iff]
  intro line hline
  refine Bool.eq_false_iff.2 fun hfound => ?_
  exact not_mem_of_mem_splitOn hline ((occursIn_iff.1 hfound).subset h)

/-- Lines are searched in vain exactly for what spans them. -/
theorem findIdx?_linesOf_eq_none_iff :
    (linesOf (before ++ (part ++ after))).findIdx? (occursIn part) = none ↔ '\n' ∈ part := by
  constructor
  · intro hnone
    by_contra hsingle
    obtain ⟨line, hline, hpart⟩ := exists_line_of_single hsingle before after
    have hfound := List.findIdx?_eq_none_iff.1 hnone line (List.mem_of_getElem? hline)
    rw [occursIn_iff.2 hpart] at hfound
    cases hfound
  · intro hspans
    exact findIdx?_linesOf_eq_none hspans _

/-! ## Where an occurrence stands -/

/-- The line on which the place behind `offset` characters of `text` lies. -/
def lineAt (text : List Char) (offset : Nat) : Nat :=
  (text.take offset).count '\n' + 1

/-- What is found in a text stands there, behind as many characters as is said. -/
theorem IsScan.exists_between {text : List Char} {found : List Occurrence} {o : Occurrence}
    (h : IsScan 0 text found) (ho : o ∈ found) :
    ∃ after, text = text.take o.offset ++ (o.written ++ after) := by
  obtain ⟨-, -, after, hafter⟩ := h.spelled o ho
  refine ⟨after, ?_⟩
  rw [hafter, Nat.sub_zero, List.take_append_drop]

theorem lineAt_le_length_linesOf (text : List Char) (offset : Nat) :
    lineAt text offset ≤ (linesOf text).length := by
  have hle : (text.take offset).count '\n' ≤ text.count '\n' :=
    (List.take_sublist offset text).count_le '\n'
  rw [linesOf, length_splitOn]
  exact Nat.succ_le_succ hle

variable {o : Occurrence} {text : List Char}

/-- A statement that is written on a line is reported there. -/
theorem line_of_findIdx?_eq_some (h : lines.findIdx? (occursIn o.written) = some index) :
    o.line text lines = index + 1 := by
  rw [Occurrence.line, h]

/-- A statement that is written on none is reported where it starts. -/
theorem line_of_findIdx?_eq_none (h : lines.findIdx? (occursIn o.written) = none) :
    o.line text lines = lineAt text o.offset := by
  rw [Occurrence.line, h, lineAt]

end Statement

open Statement

/-- A statement that holds no newline is reported on the first line in which it is written, and one
that spans lines, which is written in none, on the line where it starts. In both cases the line is
one of the text, and none behind the line where the statement starts. -/
theorem importsOf_numbered (text : String) :
    importsOf text = (scan 0 text.toList).map (Occurrence.toImport text) ∧
    ∀ o ∈ scan 0 text.toList,
      o.statement.Written o.written ∧ o.written <+: text.toList.drop o.offset ∧
      let lines := linesOf text.toList
      let line := (o.toImport text).line
      let start := lineAt text.toList o.offset
      ('\n' ∉ o.written → IsFirstLine o.written lines line) ∧
      ('\n' ∈ o.written → line = start) ∧
      1 ≤ line ∧ line ≤ start ∧ start ≤ lines.length ∧
      (lines.findIdx? (occursIn o.written) = none ↔ '\n' ∈ o.written) := by
  refine ⟨rfl, fun o ho => ?_⟩
  have hscan : IsScan 0 text.toList (scan 0 text.toList) := isScan_iff.2 rfl
  obtain ⟨hwritten, -, hstands⟩ := hscan.spelled o ho
  obtain ⟨after, htext⟩ := hscan.exists_between ho
  refine ⟨hwritten, hstands, ?_⟩
  intro lines line start
  have hnone : lines.findIdx? (occursIn o.written) = none ↔ '\n' ∈ o.written := by
    simp only [lines]
    rw [htext]
    exact findIdx?_linesOf_eq_none_iff
  have hstart : start ≤ lines.length := lineAt_le_length_linesOf text.toList o.offset
  by_cases hspans : '\n' ∈ o.written
  · have hline : line = start := line_of_findIdx?_eq_none (hnone.2 hspans)
    have hpos : 1 ≤ start := Nat.succ_pos _
    exact ⟨absurd hspans, fun _ => hline, by omega, Nat.le_of_eq hline, hstart, hnone⟩
  · obtain ⟨index, hfind⟩ := Option.ne_none_iff_exists'.1 (mt hnone.1 hspans)
    have hline : line = index + 1 := line_of_findIdx?_eq_some hfind
    obtain ⟨own, hown, hpart⟩ := exists_line_of_single hspans (text.toList.take o.offset) after
    rw [← htext] at hown
    have hle : index + 1 ≤ start := Nat.succ_le_succ (index_le_of_findIdx? hfind hown hpart)
    rw [hline]
    exact ⟨fun _ => isFirstLine_of_findIdx? hfind, fun h => absurd h hspans, Nat.succ_pos index,
      hle, hstart, hnone⟩

/-- A comment on the first line holds a copy of the statement on the last one, and the statement
between them spans lines. -/
theorem importsOf_numbered_of_copy :
    let text := "// import a from 'a'\nimport \x7b\n  b\n\x7d from 'b'\nimport a from 'a'"
    let spanning : Occurrence :=
      ⟨21, "import \x7b\n  b\n\x7d from 'b'".toList, ⟨.listed "\n  b\n".toList, ['b']⟩⟩
    let copied : Occurrence := ⟨45, "import a from 'a'".toList, ⟨.default ['a'], ['a']⟩⟩
    spanning ∈ scan 0 text.toList ∧ (spanning.toImport text).line = 2 ∧
    copied ∈ scan 0 text.toList ∧ lineAt text.toList copied.offset = 5 ∧
    IsFirstLine copied.written (linesOf text.toList) 1 := by
  intro text spanning copied
  obtain ⟨-, hnumbered⟩ := importsOf_numbered text
  have hspanning : spanning ∈ scan 0 text.toList := by decide +kernel
  have hcopied : copied ∈ scan 0 text.toList := by decide +kernel
  obtain ⟨-, -, -, hstart, -⟩ := hnumbered spanning hspanning
  obtain ⟨-, -, hfirst, -⟩ := hnumbered copied hcopied
  have hcopy : (copied.toImport text).line = 1 := by decide +kernel
  rw [hcopy] at hfirst
  refine ⟨hspanning, ?_, hcopied, by decide +kernel, hfirst (by decide)⟩
  exact (hstart (by decide)).trans (by decide +kernel)

end ModuleGraph
