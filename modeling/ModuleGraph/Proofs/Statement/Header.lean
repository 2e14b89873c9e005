import ModuleGraph.Proofs.Statement.Lines

/-!
# A header moves statements down

In front of a text there may be other lines, such as a licence. If the word that a statement begins
with is nowhere in them, they only move the statements of the text down.

The word holds no newline, so it cannot begin in the header and go on in the text: no place of the
header is the beginning of a statement (`IsHeader.not_begins`). The scan therefore comes to the text
as it would without the header, and what it finds there is the same but for the number of characters
before it (`scan_append_of_isHeader`, `scan_add`).

The line of a statement is found in one of two ways, and both go through the header. A search for
the line passes over the header's lines, since a statement holds the word and none of them does
(`IsHeader.findIdx?_linesOf`); where the search is in vain, the newlines before the statement are
counted, those of the header among them. Either way the number grows by the newlines of the header.
-/

namespace ModuleGraph

namespace Statement

variable {header part : List Char}

/-- Whole lines, in which the word that a statement begins with does not occur. -/
structure IsHeader (header : List Char) : Prop where
  whole : header = [] ∨ header.getLast? = some '\n'
  no_import : ¬ importWord <:+: header

/-- The occurrence, when `count` more characters stand before the text. -/
def Occurrence.behind (count : Nat) (o : Occurrence) : Occurrence :=
  { o with offset := o.offset + count }

/-! ## No statement begins in a header -/

theorem Written.isPrefix_importWord {s : Statement} {front : List Char} (h : s.Written front) :
    importWord <+: front := by
  cases h with
  | mk => exact List.prefix_append importWord _

theorem Begins.isPrefix_importWord {cs : List Char} (h : Begins cs) : importWord <+: cs := by
  obtain ⟨s, front, hw, hfront⟩ := h
  exact hw.isPrefix_importWord.trans hfront

theorem IsHeader.tail {c : Char} {cs : List Char} (h : IsHeader (c :: cs)) : IsHeader cs := by
  refine ⟨?_, fun himport => h.no_import (himport.trans (List.suffix_cons c cs).isInfix)⟩
  cases cs with
  | nil => exact Or.inl rfl
  | cons d cs =>
      refine Or.inr ?_
      rw [← List.getLast?_cons_cons]
      exact h.whole.resolve_left (List.cons_ne_nil _ _)

theorem IsHeader.not_begins (h : IsHeader header) (hne : header ≠ []) (text : List Char) :
    ¬ Begins (header ++ text) := by
  intro hbegins
  have hword := hbegins.isPrefix_importWord
  rcases List.prefix_or_prefix_of_prefix hword (List.prefix_append header text) with hin | hover
  · exact h.no_import hin.isInfix
  · -- the word would go on behind the header, and hold the newline at its end
    have hlast : '\n' ∈ header := List.mem_of_getLast? (h.whole.resolve_left hne)
    exact absurd (hover.subset hlast) (by decide)

/-- The scan passes over a header. -/
theorem scan_append_of_isHeader (h : IsHeader header) (base : Nat) (text : List Char) :
    scan base (header ++ text) = scan (base + header.length) text := by
  induction header generalizing base with
  | nil => rfl
  | cons c cs ih =>
      have hno : ¬ Begins (c :: (cs ++ text)) := h.not_begins (List.cons_ne_nil c cs) text
      rw [List.cons_append, scan_cons_of_not_begins hno, ih h.tail, List.length_cons,
        Nat.add_assoc, Nat.add_comm 1]

/-- The same statements are found behind more characters. -/
theorem scan_add (base count : Nat) (cs : List Char) :
    scan (base + count) cs = (scan base cs).map (Occurrence.behind count) := by
  induction cs using scan_induct generalizing base with
  | nil => rw [scan, scan, List.map_nil]
  | take s front rest hw ih =>
      rw [scan_append hw, scan_append hw, List.map_cons, ← ih, Nat.add_right_comm]
      rfl
  | skip c cs hno ih =>
      rw [scan_cons_of_not_begins hno, scan_cons_of_not_begins hno, ← ih, Nat.add_right_comm]

/-! ## The lines of a header -/

/-- The lines of a header come before those of the text, one for each of its newlines. -/
theorem IsHeader.exists_linesOf_append (h : IsHeader header) (text : List Char) :
    ∃ lines, linesOf (header ++ text) = lines ++ linesOf text ∧
      lines.length = header.count '\n' ∧ ∀ line ∈ lines, line <:+: header := by
  rcases h.whole with rfl | hlast
  · exact ⟨[], rfl, rfl, fun _ hline => absurd hline List.not_mem_nil⟩
  · obtain ⟨front, rfl⟩ := List.getLast?_eq_some_iff.1 hlast
    refine ⟨linesOf front, ?_, ?_, ?_⟩
    · rw [List.append_assoc, List.singleton_append, linesOf, List.splitOn_append_cons_self]
      rfl
    · rw [linesOf, length_splitOn, List.count_append, List.count_singleton_self]
    · intro line hline
      exact (isInfix_of_mem_splitOn hline).trans (List.prefix_append front _).isInfix

/-- What holds the word is looked for in vain on the lines of a header. -/
theorem IsHeader.findIdx?_linesOf (h : IsHeader header) (hpart : importWord <:+: part)
    (text : List Char) : (linesOf (header ++ text)).findIdx? (occursIn part) =
      ((linesOf text).findIdx? (occursIn part)).map (· + header.count '\n') := by
  obtain ⟨lines, hlines, hlength, hheader⟩ := h.exists_linesOf_append text
  have hnone : lines.findIdx? (occursIn part) = none := by
    refine List.findIdx?_eq_none_iff.2 fun line hline => Bool.eq_false_iff.2 fun hfound => ?_
    exact h.no_import (hpart.trans ((occursIn_iff.1 hfound).trans (hheader line hline)))
  rw [hlines, List.findIdx?_append, hnone, Option.none_or, hlength]

/-- The line that is reported moves down by the lines of a header. -/
theorem line_behind {o : Occurrence} (h : IsHeader header) (ho : o.statement.Written o.written)
    (text : List Char) :
    (o.behind header.length).line (header ++ text) (linesOf (header ++ text)) =
      o.line text (linesOf text) + header.count '\n' := by
  have hsearch : (linesOf (header ++ text)).findIdx? (occursIn (o.behind header.length).written) =
      ((linesOf text).findIdx? (occursIn o.written)).map (· + header.count '\n') :=
    h.findIdx?_linesOf ho.isPrefix_importWord.isInfix text
  have hbefore : (header ++ text).take (o.behind header.length).offset =
      header ++ text.take o.offset := by
    rw [Occurrence.behind, Nat.add_comm, List.take_length_add_append]
  rw [Occurrence.line, Occurrence.line, hsearch]
  cases (linesOf text).findIdx? (occursIn o.written) with
  | some index => exact Nat.add_right_comm index _ 1
  | none =>
      show ((header ++ text).take (o.behind header.length).offset).count '\n' + 1 =
        (text.take o.offset).count '\n' + 1 + header.count '\n'
      rw [hbefore, List.count_append]
      omega

end Statement

open Statement

/-- The import, with so many lines more above it. -/
def Import.below (lines : Nat) (i : Import) : Import :=
  { i with line := i.line + lines }

theorem Statement.toImport_behind {o : Occurrence} {header : String} (h : IsHeader header.toList)
    (ho : o.statement.Written o.written) (text : String) :
    (o.behind header.toList.length).toImport (header ++ text) =
      (o.toImport text).below (header.toList.count '\n') := by
  simp only [Occurrence.toImport, Import.below, String.toList_append, line_behind h ho]
  rfl

/-- Lines that do not hold the word `import`, written in front of a text, move its imports down by
as many lines as they are. The imports are as many as before, in the same order, with the same names
and the same paths. -/
theorem importsOf_header_append (header text : String) (h : IsHeader header.toList) :
    importsOf (header ++ text) =
      (importsOf text).map (Import.below (header.toList.count '\n')) := by
  have hscan : scan 0 (header.toList ++ text.toList) =
      (scan 0 text.toList).map (Occurrence.behind header.toList.length) := by
    rw [scan_append_of_isHeader h, scan_add]
  show (scan 0 (header ++ text).toList).map (Occurrence.toImport (header ++ text)) =
    ((scan 0 text.toList).map (Occurrence.toImport text)).map _
  rw [String.toList_append, hscan, List.map_map, List.map_map]
  refine List.map_congr_left fun o ho => ?_
  exact toImport_behind h (written_of_mem_scan ho) text

/-- A statement that spans lines, and one that is reported where a comment repeats it; the header
holds a part of a statement. -/
theorem importsOf_header_append_of_spanning :
    let header := "// from 'x'\n\n"
    let text := "import \x7b\n  a\n\x7d from 'a' // import b from 'b'\nimport b from 'b'"
    IsHeader header.toList ∧ importsOf text = [⟨["a"], "a", 1⟩, ⟨["b"], "b", 3⟩, ⟨["b"], "b", 3⟩] ∧
      importsOf (header ++ text) = [⟨["a"], "a", 3⟩, ⟨["b"], "b", 5⟩, ⟨["b"], "b", 5⟩] := by
  intro header text
  have hheader : IsHeader header.toList := ⟨Or.inr (by decide +kernel), by decide +kernel⟩
  have hlines : header.toList.count '\n' = 2 := by decide +kernel
  have htext : importsOf text = [⟨["a"], "a", 1⟩, ⟨["b"], "b", 3⟩, ⟨["b"], "b", 3⟩] := by
    decide +kernel
  have hmoved := importsOf_header_append header text hheader
  rw [htext, hlines] at hmoved
  exact ⟨hheader, htext, hmoved⟩

end ModuleGraph
