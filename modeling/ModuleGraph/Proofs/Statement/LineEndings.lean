import ModuleGraph.Proofs.Statement.Lines
import ModuleGraph.Proofs.Text.LineEndings

/-!
# Imports do not depend on how lines end

Write a carriage return before every newline of a text, and the statements found in it are those
found before, written out in the same way (`scan_crlf`). This is seen from the reader, part by part.
No word that it looks for holds either character, both are blanks, and neither is a quote, a brace
or a part of a name. So each part ends where it ended before, and what it reads is what it read
before with the carriage returns in it (`read?_crlf`).

Two things are not a matter of the reader. The place of a statement moves by as many characters as
there are newlines before it, but the number of newlines before it stays. And all lines but the last
become longer by one carriage return, on which no statement is found that was not found without
it, since a statement ends in a quote (`findIdx?_linesOf_crlf`).
-/

namespace ModuleGraph

open Text

/-- The clause, with carriage returns before the newlines between its braces. There are none in any
other clause, as names hold word characters only. -/
def Clause.withReturns : Clause → Clause
  | .listed body => .listed (crlf body)
  | .everything alias? => .everything alias?
  | .default name => .default name

namespace Statement

variable {cs part : List Char}

def withReturns (s : Statement) : Statement :=
  ⟨s.clause.withReturns, crlf s.path⟩

/-- An occurrence in `text`, where it stands when the text has carriage returns. -/
def Occurrence.withReturns (text : List Char) (o : Occurrence) : Occurrence :=
  ⟨(crlf (text.take o.offset)).length, crlf o.written, o.statement.withReturns⟩

/-! ## Reading a part -/

theorem isWord_newline : isWord '\n' = false :=
  isWord_eq_false_of_isBlank (by decide)

/-- Neither character goes on with a name. -/
theorem isWord_return : isWord '\r' = isWord '\n' := by
  rw [isWord_newline, isWord_eq_false_of_isBlank (by decide)]

theorem after?_crlf {word : List Char} (hword : ∀ w ∈ word, isWord w = true) (cs : List Char) :
    after? word (crlf cs) = (after? word cs).map crlf := by
  induction word generalizing cs with
  | nil => rfl
  | cons w word ih =>
      have hnewline : w ≠ '\n' := by
        rintro rfl
        exact not_mem_of_isWord hword isWord_newline List.mem_cons_self
      have hreturn : w ≠ '\r' := by
        rintro rfl
        exact not_mem_of_isWord hword (isWord_return.trans isWord_newline) List.mem_cons_self
      cases cs with
      | nil => rfl
      | cons c cs =>
          by_cases hc : c = '\n'
          · rw [hc, crlf_newline, after?_eq_none hreturn, after?_eq_none hnewline]
            rfl
          · rw [crlf_cons hc, after?, after?]
            split
            · exact ih (List.forall_mem_cons.1 hword).2 cs
            · rfl

theorem trimStart_crlf (cs : List Char) : trimStart (crlf cs) = crlf (trimStart cs) :=
  dropWhile_crlf (by decide) cs

theorem afterBlanks?_crlf (cs : List Char) :
    afterBlanks? (crlf cs) = (afterBlanks? cs).map crlf := by
  cases cs with
  | nil => rfl
  | cons c cs =>
      by_cases hc : c = '\n'
      · -- the carriage return is the first of the blanks, and the newline one of the others
        subst hc
        have hnewline : trimStart ('\n' :: crlf cs) = trimStart (crlf cs) := rfl
        show some (trimStart ('\n' :: crlf cs)) = some (crlf (trimStart cs))
        rw [hnewline, trimStart_crlf]
      · rw [crlf_cons hc, afterBlanks?, afterBlanks?, trimStart_crlf]
        split
        · rfl
        · rfl

/-- What is read behind a part is the same as before, if each part is. -/
theorem bind_eq_map_bind {α β : Type} {f : α → α} {g : β → β} {read read' : α → Option β}
    (h : ∀ a, read (f a) = (read' a).map g) (a? : Option α) :
    (a?.map f).bind read = (a?.bind read').map g := by
  cases a? with
  | none => rfl
  | some a => exact h a

theorem takeWhile_isWord_crlf (cs : List Char) :
    (crlf cs).takeWhile isWord = cs.takeWhile isWord := by
  rw [takeWhile_crlf isWord_return, crlf_eq_self]
  have hword : ∀ c ∈ cs.takeWhile isWord, isWord c = true := List.all_eq_true.1 List.all_takeWhile
  exact not_mem_of_isWord hword isWord_newline

theorem nameThenFrom?_crlf (cs : List Char) :
    nameThenFrom? (crlf cs) = (nameThenFrom? cs).map (Prod.map id crlf) := by
  simp only [nameThenFrom?, takeWhile_isWord_crlf, dropWhile_crlf isWord_return, afterBlanks?_crlf,
    bind_eq_map_bind (after?_crlf isName_fromWord.2)]
  split
  · rfl
  · cases (afterBlanks? (cs.dropWhile isWord)).bind (after? fromWord) with
    | some rest => rfl
    | none =>
        cases TextPath.dropTail? fromWord (cs.takeWhile isWord) with
        | none => rfl
        | some name =>
            cases name with
            | nil => rfl
            | cons c name => rfl

theorem clauseThenFrom?_listed_crlf (cs : List Char) : clauseThenFrom? ('{' :: crlf cs) =
    (clauseThenFrom? ('{' :: cs)).map (Prod.map Clause.withReturns crlf) := by
  simp only [clauseThenFrom?, takeWhile_crlf (p := (· != '}')) (by decide), isEmpty_crlf]
  split
  · rfl
  · cases hrest : cs.dropWhile (· != '}') with
    | nil =>
        rw [dropWhile_crlf (p := (· != '}')) (by decide), hrest]
        rfl
    | cons c rest =>
        rw [dropWhile_crlf_of_eq_cons (p := (· != '}')) (by decide) (by decide) hrest]
        simp only [trimStart_crlf, after?_crlf isName_fromWord.2, Option.map_map]
        rfl

theorem clauseThenFrom?_everything_crlf (cs : List Char) : clauseThenFrom? ('*' :: crlf cs) =
    (clauseThenFrom? ('*' :: cs)).map (Prod.map Clause.withReturns crlf) := by
  simp only [clauseThenFrom?, afterBlanks?_crlf, bind_eq_map_bind (after?_crlf isName_asWord.2),
    bind_eq_map_bind afterBlanks?_crlf]
  cases ((afterBlanks? cs).bind (after? asWord)).bind afterBlanks? with
  | none =>
      simp only [Option.map_none, trimStart_crlf, after?_crlf isName_fromWord.2, Option.map_map]
      rfl
  | some rest =>
      simp only [Option.map_some, nameThenFrom?_crlf, Option.map_map]
      rfl

/-- A clause that is neither a list nor `*` is a name. -/
theorem clauseThenFrom?_of_ne (hbrace : cs.head? ≠ some '{') (hstar : cs.head? ≠ some '*') :
    clauseThenFrom? cs = (nameThenFrom? cs).map fun p => (.default p.1, p.2) := by
  unfold clauseThenFrom?
  split
  · exact absurd rfl hbrace
  · exact absurd rfl hstar
  · rfl

theorem clauseThenFrom?_crlf (cs : List Char) :
    clauseThenFrom? (crlf cs) = (clauseThenFrom? cs).map (Prod.map Clause.withReturns crlf) := by
  by_cases hbrace : cs.head? = some '{'
  · obtain ⟨rest, rfl⟩ := List.head?_eq_some_iff.1 hbrace
    exact clauseThenFrom?_listed_crlf rest
  by_cases hstar : cs.head? = some '*'
  · obtain ⟨rest, rfl⟩ := List.head?_eq_some_iff.1 hstar
    exact clauseThenFrom?_everything_crlf rest
  · have hbrace' : (crlf cs).head? ≠ some '{' :=
      mt (head?_crlf_iff (by decide) (by decide)).1 hbrace
    have hstar' : (crlf cs).head? ≠ some '*' :=
      mt (head?_crlf_iff (by decide) (by decide)).1 hstar
    rw [clauseThenFrom?_of_ne hbrace hstar, clauseThenFrom?_of_ne hbrace' hstar',
      nameThenFrom?_crlf, Option.map_map, Option.map_map]
    rfl

theorem quoted?_crlf (cs : List Char) :
    quoted? (crlf cs) = (quoted? cs).map (Prod.map crlf crlf) := by
  cases cs with
  | nil => rfl
  | cons q cs =>
      by_cases hq : q = '\n'
      · rw [hq]
        rfl
      · rw [crlf_cons hq]
        simp only [quoted?, takeWhile_crlf (p := (!isQuote ·)) (by decide), isEmpty_crlf]
        split
        · cases hrest : cs.dropWhile (!isQuote ·) with
          | nil =>
              rw [dropWhile_crlf (p := (!isQuote ·)) (by decide), hrest]
              rfl
          | cons c rest =>
              rw [dropWhile_crlf_of_eq_cons (p := (!isQuote ·)) (by decide) (by decide) hrest]
              simp only
              split
              · rfl
              · rfl
        · rfl

/-- A text is read as it was without the carriage returns. -/
theorem read?_crlf (cs : List Char) :
    read? (crlf cs) = (read? cs).map (Prod.map withReturns crlf) := by
  simp only [read?, Option.bind_eq_bind, after?_crlf isName_importWord.2]
  refine bind_eq_map_bind (fun cs => ?_) _
  rw [trimStart_crlf, clauseThenFrom?_crlf]
  refine bind_eq_map_bind (fun p => ?_) _
  obtain ⟨clause, cs⟩ := p
  simp only [Prod.map, afterBlanks?_crlf]
  refine bind_eq_map_bind (fun cs => ?_) _
  rw [quoted?_crlf]
  refine bind_eq_map_bind (fun p => ?_) _
  rfl

/-! ## Scanning a text -/

theorem written_crlf {s : Statement} {front : List Char} (h : s.Written front) :
    s.withReturns.Written (crlf front) := by
  have hread : read? (crlf front) = some (s.withReturns, crlf []) := by
    rw [read?_crlf, ← List.append_nil front, read?_append h]
    rfl
  obtain ⟨front', hw, hfront⟩ := read?_eq_some_iff.1 hread
  rw [crlf_nil, List.append_nil] at hfront
  rw [hfront]
  exact hw

theorem begins_crlf_iff : Begins (crlf cs) ↔ Begins cs := by
  rw [begins_iff, begins_iff, read?_crlf]
  constructor
  · rintro ⟨s, rest, h⟩
    obtain ⟨p, hp, -⟩ := Option.map_eq_some_iff.1 h
    exact ⟨p.1, p.2, hp⟩
  · rintro ⟨s, rest, h⟩
    exact ⟨s.withReturns, crlf rest, by rw [h]; rfl⟩

/-- Where no statement begins, none begins at the carriage return before it either. -/
theorem scan_crlf_of_not_begins {c : Char} (h : ¬ Begins (c :: cs)) (base : Nat) :
    scan base (crlf (c :: cs)) = scan (base + (crlf [c]).length) (crlf cs) := by
  by_cases hc : c = '\n'
  · rw [hc, crlf_newline, scan_cons_of_not_begins (not_begins_of_ne (by decide)),
      scan_cons_of_not_begins (not_begins_of_ne (by decide))]
    rfl
  · have hno : ¬ Begins (c :: crlf cs) := by
      rw [← crlf_cons hc]
      exact mt begins_crlf_iff.1 h
    rw [crlf_cons hc, crlf_cons hc, scan_cons_of_not_begins hno]
    rfl

/-- The same statements are found, each behind as many more characters as there are newlines before
it. -/
theorem scan_crlf (before cs : List Char) : scan (crlf before).length (crlf cs) =
    (scan before.length cs).map (Occurrence.withReturns (before ++ cs)) := by
  induction cs using scan_induct generalizing before with
  | nil => rw [crlf_nil, scan, scan, List.map_nil]
  | take s front rest hw ih =>
      have hfirst : Occurrence.withReturns (before ++ (front ++ rest)) ⟨before.length, front, s⟩ =
          ⟨(crlf before).length, crlf front, s.withReturns⟩ := by
        rw [Occurrence.withReturns, List.take_left]
      have hlater := ih (before ++ front)
      rw [crlf_append, List.length_append, List.length_append, List.append_assoc] at hlater
      rw [scan_append hw, List.map_cons, hfirst, ← hlater, crlf_append,
        scan_append (written_crlf hw)]
  | skip c cs hno ih =>
      have hlater := ih (before ++ [c])
      rw [crlf_append, List.length_append, List.length_append, List.append_assoc] at hlater
      rw [scan_crlf_of_not_begins hno, hlater, scan_cons_of_not_begins hno]
      rfl

/-! ## Looking for a line -/

/-- A carriage return at the end of a line is no part of what ends in another character. -/
theorem occursIn_concat_return (hlast : part.getLast? ≠ some '\r') (line : List Char) :
    occursIn part (line ++ ['\r']) = occursIn part line := by
  rw [Bool.eq_iff_iff, occursIn_iff, occursIn_iff]
  constructor
  · intro h
    rcases List.infix_concat_iff.1 h with h | h
    · rcases List.suffix_concat_iff.1 h with rfl | ⟨front, rfl, -⟩
      · exact List.nil_infix
      · exact absurd List.getLast?_concat hlast
    · exact h
  · intro h
    exact h.trans (List.prefix_append line _).isInfix

theorem findIdx?_linesOf_crlf (hlast : part.getLast? ≠ some '\r') (text : List Char) :
    (linesOf (crlf text)).findIdx? (occursIn part) = (linesOf text).findIdx? (occursIn part) := by
  rw [linesOf, linesOf]
  induction text using splitOn_induct (a := '\n') with
  | last line hline => rw [crlf_eq_self hline, List.splitOn_eq_singleton hline]
  | next line rest hline ih =>
      rw [splitOn_newline_crlf hline, List.findIdx?_cons, List.findIdx?_cons,
        occursIn_concat_return hlast, ih]

/-- A statement ends in a quote. -/
theorem Written.exists_eq_concat {s : Statement} {front : List Char} (h : s.Written front) :
    ∃ init q, isQuote q = true ∧ front = init ++ [q] := by
  cases h with
  | @mk clause path part quoted b₁ b₂ b₃ _ _ _ _ _ hquoted =>
      cases hquoted with
      | @mk q₁ q₂ _ _ _ hq₂ =>
          refine ⟨importWord ++ (b₁ ++ (part ++ (b₂ ++ (fromWord ++ (b₃ ++ q₁ :: path))))), q₂, hq₂,
            ?_⟩
          simp only [List.append_assoc, List.cons_append]

theorem Written.getLast?_ne_return {s : Statement} {front : List Char} (h : s.Written front) :
    front.getLast? ≠ some '\r' := by
  obtain ⟨init, q, hq, rfl⟩ := h.exists_eq_concat
  rw [List.getLast?_concat]
  rintro ⟨⟩
  exact absurd hq (by decide)

/-- The same lines are found, whether a statement spans lines or not. -/
theorem findIdx?_linesOf_written {s : Statement} {front : List Char} (h : s.Written front)
    (text : List Char) : (linesOf (crlf text)).findIdx? (occursIn (crlf front)) =
      (linesOf text).findIdx? (occursIn front) := by
  by_cases hspans : '\n' ∈ front
  · have hspans' : '\n' ∈ crlf front := (mem_crlf_iff (by decide)).2 hspans
    rw [findIdx?_linesOf_eq_none hspans, findIdx?_linesOf_eq_none hspans']
  · rw [crlf_eq_self hspans, findIdx?_linesOf_crlf h.getLast?_ne_return]

/-- The line that is reported for a statement stays. -/
theorem line_withReturns {o : Occurrence} (h : o.statement.Written o.written) (text : List Char) :
    (o.withReturns text).line (crlf text) (linesOf (crlf text)) = o.line text (linesOf text) := by
  have hsearch : (linesOf (crlf text)).findIdx? (occursIn (o.withReturns text).written) =
      (linesOf text).findIdx? (occursIn o.written) := findIdx?_linesOf_written h text
  have hcount : ((crlf text).take (o.withReturns text).offset).count '\n' =
      (text.take o.offset).count '\n' := by
    rw [Occurrence.withReturns, take_length_crlf, count_newline_crlf]
  rw [Occurrence.line, Occurrence.line, hsearch, hcount]

end Statement

/-! ## The imports of a text -/

/-- The names that a clause imports hold the newlines that stand inside of them. -/
theorem Clause.names_withReturns {clause : Clause} {part : List Char} (h : clause.Written part) :
    clause.withReturns.names = clause.names.map Text.withReturns := by
  cases h with
  | @listed body =>
      have hempty : (!·.isEmpty) ∘ crlf = (!·.isEmpty) :=
        funext fun piece => congrArg not (isEmpty_crlf piece)
      have htrim : trim ∘ crlf = crlf ∘ trim := funext trim_crlf
      have hwrite : String.ofList ∘ crlf = Text.withReturns ∘ String.ofList :=
        funext fun piece => (withReturns_ofList piece).symm
      simp only [withReturns, names]
      rw [dropWhile_crlf (p := (· == '{')) (by decide), splitOn_crlf (by decide) (by decide),
        List.map_map, htrim, ← List.map_map, List.filter_map, hempty, List.map_map, hwrite,
        ← List.map_map]
  | everything => rfl
  | renamed => rfl
  | default hname =>
      have hself : Text.withReturns (String.ofList part) = String.ofList part := by
        rw [withReturns_ofList, crlf_eq_self (not_mem_of_isWord hname.2 Statement.isWord_newline)]
      rw [withReturns, names, List.map_singleton, hself]

theorem Statement.names_withReturns {s : Statement} {front : List Char} (h : s.Written front) :
    s.withReturns.clause.names = s.clause.names.map Text.withReturns := by
  cases h with
  | mk _ hpart => exact Clause.names_withReturns hpart

/-- The import, with a carriage return before every newline in its names and its path. -/
def Import.withReturns (i : Import) : Import where
  names := i.names.map Text.withReturns
  specifier := Text.withReturns i.specifier
  line := i.line

theorem Import.withReturns_eq_self {i : Import} (hnames : ∀ name ∈ i.names, '\n' ∉ name.toList)
    (hpath : '\n' ∉ i.specifier.toList) : i.withReturns = i := by
  have hsame : i.names.map Text.withReturns = i.names :=
    (List.map_congr_left fun name hname => Text.withReturns_eq_self (hnames name hname)).trans
      (List.map_id i.names)
  rw [withReturns, hsame, Text.withReturns_eq_self hpath]

open Statement

/-- What is kept of an occurrence is the same, with carriage returns. -/
theorem toImport_withReturns {text : String} {o : Occurrence} (h : o.statement.Written o.written) :
    (o.withReturns text.toList).toImport (Text.withReturns text) =
      (o.toImport text).withReturns := by
  have hline := line_withReturns h text.toList
  rw [← toList_withReturns] at hline
  rw [Occurrence.toImport, hline, Occurrence.toImport, Import.withReturns, withReturns_ofList,
    ← names_withReturns h]
  rfl

theorem importsOf_withReturns_eq_map (text : String) :
    importsOf (Text.withReturns text) = (importsOf text).map Import.withReturns := by
  have hscan : scan 0 (crlf text.toList) =
      (scan 0 text.toList).map (Occurrence.withReturns text.toList) := scan_crlf [] text.toList
  calc importsOf (Text.withReturns text)
      = (scan 0 (crlf text.toList)).map (Occurrence.toImport (Text.withReturns text)) := by
        rw [← toList_withReturns]
        rfl
    _ = (scan 0 text.toList).map fun o =>
          (o.withReturns text.toList).toImport (Text.withReturns text) := by
        rw [hscan, List.map_map]
        rfl
    _ = (scan 0 text.toList).map fun o => (o.toImport text).withReturns :=
        List.map_congr_left fun o ho => toImport_withReturns (written_of_mem_scan ho)
    _ = ((scan 0 text.toList).map (Occurrence.toImport text)).map Import.withReturns := by
        rw [List.map_map]
        rfl

/-- With a carriage return before every newline of a text, the same imports are found on the same
lines, and their names and paths are those found before with a carriage return before every newline.
So the imports are the same if no name and no path holds a newline. -/
theorem importsOf_withReturns (text : String) :
    importsOf (Text.withReturns text) = (importsOf text).map Import.withReturns ∧
    ((∀ i ∈ importsOf text, (∀ name ∈ i.names, '\n' ∉ name.toList) ∧ '\n' ∉ i.specifier.toList) →
      importsOf (Text.withReturns text) = importsOf text) := by
  have hall := importsOf_withReturns_eq_map text
  refine ⟨hall, fun hsingle => ?_⟩
  have hsame : (importsOf text).map Import.withReturns = importsOf text :=
    (List.map_congr_left fun i hi =>
      Import.withReturns_eq_self (hsingle i hi).1 (hsingle i hi).2).trans (List.map_id _)
  rw [hall, hsame]

/-- A list that spans lines, one of which ends in a carriage return already, and a name with a
newline in it. -/
theorem importsOf_withReturns_of_spanning :
    let spanning := "// first\nimport \x7b\n  a,\r\n  b\n\x7d from './b'\n"
    let broken := "import \x7b a\nb \x7d from './b'"
    let found : List Import := [⟨["a", "b"], "./b", 2⟩]
    importsOf spanning = found ∧ importsOf (Text.withReturns spanning) = found ∧
    importsOf (Text.withReturns broken) = [⟨["a\r\nb"], "./b", 1⟩] := by
  intro spanning broken found
  have hfound : importsOf spanning = found := by decide +kernel
  have hbroken : importsOf broken = [⟨["a\nb"], "./b", 1⟩] := by decide +kernel
  obtain ⟨-, hsame⟩ := importsOf_withReturns spanning
  obtain ⟨hall, -⟩ := importsOf_withReturns broken
  refine ⟨hfound, ?_, ?_⟩
  · rw [← hfound]
    refine hsame ?_
    rw [hfound]
    decide
  · rw [hall, hbroken]
    decide +kernel

end ModuleGraph
