import Mathlib.Data.List.Infix
import ModuleGraph.Proofs.Statement.Names
import ModuleGraph.Proofs.Text.Trim

/-!
# Statements in their plain form

A `Plain` statement is one with a single space between its parts, the path in single quotes and on
one line, and the names of a list with a comma and a space between them. Its names may be any words,
`import`, `from` and `as` among them. Lines of such statements are read back as these statements:
the scan finds each of them, and no other (`forall₂_scan_lines`), and the names are found again in
the list they are written as (`names_reading`).

Of the line that is reported for a statement more has to be known, since it is the first line in
which the statement is written. That no plain statement is written in a longer one
(`eq_of_text_infix`) is seen from its quotes and its spaces: the quotes of the two are the same
quotes, so the longer one would have `import` and a space in its clause, where a space behind a `t`
stands before the closing brace only.
-/

namespace ModuleGraph

open Text

/-- A word that can be a name. -/
structure Plain.Name where
  chars : List Char
  isName : IsName chars

/-- A path that can stand between quotes on one line. -/
structure Plain.Path where
  chars : List Char
  ne_nil : chars ≠ []
  no_quote : ∀ c ∈ chars, Statement.isQuote c = false
  no_newline : '\n' ∉ chars

/-- What a plain statement imports. -/
inductive Plain.Clause where
  /-- `w` -/
  | default (name : Name)
  /-- `*` -/
  | everything
  /-- `* as w` -/
  | renamed (name : Name)
  /-- `{ w, …, w }`, with at least one name. -/
  | listed (first : Name) (rest : List Name)

/-- A statement in its plain form. -/
structure Plain where
  clause : Plain.Clause
  path : Plain.Path

namespace Plain

open Statement

/-! ## Printing -/

/-- The names with a comma and a space between them, and a space at both ends. -/
def bodyOf (names : List Name) : List Char :=
  ' ' :: ([',', ' '].intercalate (names.map Name.chars) ++ [' '])

def Clause.text : Clause → List Char
  | .default name => name.chars
  | .everything => ['*']
  | .renamed name => '*' :: ' ' :: (asWord ++ ' ' :: name.chars)
  | .listed first rest => '{' :: (bodyOf (first :: rest) ++ ['}'])

/-- The names that are imported, or the wildcard. -/
def Clause.names : Clause → List String
  | .default name => [String.ofList name.chars]
  | .everything | .renamed _ => [wildcard]
  | .listed first rest => (first :: rest).map fun name => String.ofList name.chars

/-- What is written before the path. -/
def Clause.lead (clause : Clause) : List Char :=
  importWord ++ ' ' :: (clause.text ++ ' ' :: (fromWord ++ [' ']))

def text (s : Plain) : List Char :=
  s.clause.lead ++ '\'' :: (s.path.chars ++ ['\''])

/-- The clause that a plain clause is read as. -/
def Clause.reading : Clause → ModuleGraph.Clause
  | .default name => .default name.chars
  | .everything => .everything none
  | .renamed name => .everything (some name.chars)
  | .listed first rest => .listed (bodyOf (first :: rest))

/-- The statement that a plain statement is read as. -/
def reading (s : Plain) : Statement :=
  ⟨s.clause.reading, s.path.chars⟩

/-- The statements on lines of their own. -/
def lines (statements : List Plain) : String :=
  String.ofList (List.intercalate ['\n'] (statements.map text))

variable {name : Name} {clause : Clause} {c : Char}

/-! ## The characters of a clause -/

/-- What a clause has beside words. -/
def marks : List Char :=
  ['*', ' ', '{', ',', '}']

theorem not_mem_bodyOf {names : List Name} (hc : isWord c = false) (hmarks : c ∉ [',', ' ']) :
    c ∉ bodyOf names := by
  have hspace : c ∉ [' '] := fun h => hmarks (List.mem_cons_of_mem _ h)
  have hnames : c ∉ [',', ' '].intercalate (names.map Name.chars) :=
    not_mem_intercalate hmarks
      (List.forall_mem_map.2 fun name _ => name.isName.not_mem hc)
  rw [bodyOf, List.mem_cons, List.mem_append, not_or, not_or]
  exact ⟨List.ne_of_not_mem_cons hspace, hnames, hspace⟩

theorem Clause.not_mem_text (hc : isWord c = false) (hmarks : c ∉ marks) : c ∉ clause.text := by
  simp only [marks, List.mem_cons, List.not_mem_nil, or_false, not_or] at hmarks
  obtain ⟨hstar, hspace, hopen, hcomma, hclose⟩ := hmarks
  cases clause with
  | default name => exact name.isName.not_mem hc
  | everything => simpa [Clause.text] using hstar
  | renamed name =>
      have has : c ∉ asWord := isName_asWord.not_mem hc
      have hname : c ∉ name.chars := name.isName.not_mem hc
      simp [Clause.text, hstar, hspace, has, hname]
  | listed first rest =>
      have hbody : c ∉ bodyOf (first :: rest) := not_mem_bodyOf hc (by simp [hcomma, hspace])
      simp [Clause.text, hopen, hclose, hbody]

theorem Clause.not_mem_lead (hc : isWord c = false) (hmarks : c ∉ marks) : c ∉ clause.lead := by
  have hspace : c ≠ ' ' := fun h => hmarks (h ▸ by decide)
  have himport : c ∉ importWord := isName_importWord.not_mem hc
  have hfrom : c ∉ fromWord := isName_fromWord.not_mem hc
  have htext : c ∉ clause.text := not_mem_text hc hmarks
  simp [Clause.lead, himport, hfrom, htext, hspace]

theorem Path.quote_not_mem (path : Path) : '\'' ∉ path.chars := by
  intro hmem
  have hno := path.no_quote '\'' hmem
  cases hno

theorem newline_not_mem_text (s : Plain) : '\n' ∉ s.text := by
  have hlead : '\n' ∉ s.clause.lead := Clause.not_mem_lead (by decide) (by decide)
  simp [text, hlead, s.path.no_newline]

/-! ## Reading -/

/-- Nothing is trimmed off a name but the blanks around it. -/
theorem trim_append {before cs after : List Char} (hbefore : Blanks before) (h : IsName cs)
    (hafter : Blanks after) : trim (before ++ (cs ++ after)) = cs :=
  trim_append_of_stops hbefore hafter h.stops h.stops_reverse

theorem map_trim_splitOn_bodyOf (first : Name) (rest : List Name) :
    ((bodyOf (first :: rest)).splitOn ',').map trim = (first :: rest).map Name.chars := by
  have hcomma : ∀ name : Name, ',' ∉ name.chars := fun name =>
    name.isName.not_mem (by decide)
  induction rest generalizing first with
  | nil =>
      have hone : ',' ∉ ' ' :: (first.chars ++ [' ']) := by simp [hcomma first]
      rw [bodyOf, List.map_singleton, List.intercalate_singleton, List.splitOn_eq_singleton hone,
        List.map_singleton]
      exact congrArg ([·]) (trim_append blanks_space first.isName blanks_space)
  | cons next rest ih =>
      have hcut : bodyOf (first :: next :: rest) =
          (' ' :: first.chars) ++ ',' :: bodyOf (next :: rest) := by
        simp only [bodyOf, List.map_cons, List.intercalate_cons_cons, List.append_assoc,
          List.cons_append, List.nil_append]
      have hone : ',' ∉ ' ' :: first.chars := by simp [hcomma first]
      have htrim : trim (' ' :: first.chars) = first.chars := by
        have h := trim_append blanks_space first.isName blanks_nil
        rwa [List.append_nil] at h
      rw [hcut, List.splitOn_append_cons_self_of_not_mem hone, List.map_cons, ih, htrim,
        List.map_cons (l := next :: rest)]

theorem Clause.names_reading (clause : Clause) : clause.reading.names = clause.names := by
  cases clause with
  | default name => rfl
  | everything => rfl
  | renamed name => rfl
  | listed first rest =>
      have hkept : ∀ cs ∈ (first :: rest).map Name.chars, (!cs.isEmpty) = true := by
        intro cs hcs
        obtain ⟨name, -, rfl⟩ := List.mem_map.1 hcs
        simpa using name.isName.1
      have hopen : (bodyOf (first :: rest)).dropWhile (· == '{') = bodyOf (first :: rest) := rfl
      rw [reading, ModuleGraph.Clause.names, hopen, map_trim_splitOn_bodyOf,
        List.filter_eq_self.2 hkept, List.map_map]
      rfl

theorem Clause.written_text (clause : Clause) : clause.reading.Written clause.text := by
  cases clause with
  | default name => exact .default name.isName
  | everything => exact .everything
  | renamed name =>
      exact .renamed blanks_space (List.cons_ne_nil _ _) blanks_space (List.cons_ne_nil _ _)
        name.isName
  | listed first rest =>
      have hclose : '}' ∉ bodyOf (first :: rest) := not_mem_bodyOf (by decide) (by decide)
      exact .listed (List.cons_ne_nil _ _) fun c hc heq => hclose (heq ▸ hc)

theorem written_text (s : Plain) : s.reading.Written s.text := by
  have hquoted : Quoted s.path.chars ('\'' :: (s.path.chars ++ ['\''])) :=
    .mk (by decide) s.path.ne_nil s.path.no_quote (by decide)
  have htext : s.text = importWord ++ ([' '] ++ (s.clause.text ++ ([' '] ++ (fromWord ++ ([' '] ++
      ('\'' :: (s.path.chars ++ ['\'']))))))) := by
    simp only [text, Clause.lead, List.append_assoc, List.cons_append, List.nil_append]
  rw [htext]
  exact .mk blanks_space s.clause.written_text blanks_space blanks_space (List.cons_ne_nil _ _)
    hquoted

/-- Lines of statements are found one by one. -/
theorem forall₂_scan_lines (base : Nat) (statements : List Plain) :
    List.Forall₂ (fun o s => o.written = s.text ∧ o.statement = s.reading)
      (scan base (List.intercalate ['\n'] (statements.map text))) statements := by
  induction statements generalizing base with
  | nil =>
      rw [List.map_nil, List.intercalate_nil, scan]
      exact .nil
  | cons s rest ih =>
      cases rest with
      | nil =>
          rw [List.map_singleton, List.intercalate_singleton, ← List.append_nil s.text,
            scan_append s.written_text, scan]
          exact .cons ⟨rfl, rfl⟩ .nil
      | cons next rest =>
          rw [List.map_cons, List.map_cons, List.intercalate_cons_cons, List.append_assoc,
            scan_append s.written_text, List.singleton_append,
            scan_cons_of_not_begins (not_begins_of_ne (by decide))]
          exact .cons ⟨rfl, rfl⟩ (ih _)

/-! ## No plain statement is written in a longer one -/

/-- A space is the first one of a text or stands behind it. -/
theorem cut_at_space {front rest before behind : List Char} {c : Char} (h : ' ' ∉ front)
    (hc : c ≠ ' ') (heq : front ++ ' ' :: rest = before ++ c :: ' ' :: behind) :
    (front.getLast? = some c ∧ rest = behind) ∨ ∃ later, rest = later ++ c :: ' ' :: behind := by
  by_cases hbefore : ' ' ∈ before
  · obtain ⟨first, later, rfl, hfirst⟩ := List.eq_append_cons_of_mem hbefore
    rw [List.append_assoc, List.cons_append] at heq
    exact Or.inr ⟨later, (append_cons_inj_of_not_mem h hfirst heq).2⟩
  · have hconcat : ' ' ∉ before ++ [c] := by simp [hbefore, Ne.symm hc]
    have hcut : front ++ ' ' :: rest = (before ++ [c]) ++ ' ' :: behind := by
      rw [heq, List.append_assoc]
      rfl
    obtain ⟨rfl, hrest⟩ := append_cons_inj_of_not_mem h hconcat hcut
    exact Or.inl ⟨List.getLast?_concat, hrest⟩

theorem Name.space_not_mem (name : Name) : ' ' ∉ name.chars :=
  name.isName.not_mem (by decide)

/-- Between the names of a list, a space stands behind a comma. -/
theorem eq_close_of_intercalate {first : Name} {rest : List Name} {before behind : List Char}
    (h : [',', ' '].intercalate ((first :: rest).map Name.chars) ++ [' ', '}'] =
      before ++ 't' :: ' ' :: behind) : behind = ['}'] := by
  induction rest generalizing first before with
  | nil =>
      rw [List.map_singleton, List.intercalate_singleton] at h
      rcases cut_at_space first.space_not_mem (by decide) h with ⟨-, hbehind⟩ | ⟨later, hlater⟩
      · exact hbehind.symm
      · have hlength := congrArg List.length hlater
        simp only [List.length_append, List.length_cons, List.length_nil] at hlength
        omega
  | cons next rest ih =>
      have hcomma : ' ' ∉ first.chars ++ [','] := by simp [first.space_not_mem]
      have hcut : (first.chars ++ [',']) ++ ' ' ::
          ([',', ' '].intercalate ((next :: rest).map Name.chars) ++ [' ', '}']) =
            before ++ 't' :: ' ' :: behind := by
        rw [← h]
        simp only [List.map_cons, List.intercalate_cons_cons, List.append_assoc, List.cons_append,
          List.nil_append]
      rcases cut_at_space hcomma (by decide) hcut with ⟨hend, -⟩ | ⟨later, hlater⟩
      · rw [List.getLast?_concat] at hend
        cases hend
      · exact ih hlater

/-- A space behind a `t` stands in a clause only before the closing brace. -/
theorem Clause.eq_close_of_text_eq {before behind : List Char}
    (h : clause.text = before ++ 't' :: ' ' :: behind) : behind = ['}'] := by
  have hspace : ' ' ∈ clause.text := by simp [h]
  cases clause with
  | default name => exact absurd hspace name.space_not_mem
  | everything => exact absurd hspace (by decide)
  | renamed name =>
      have hstar : ['*'] ++ ' ' :: (asWord ++ ' ' :: name.chars) =
          before ++ 't' :: ' ' :: behind := h
      rcases cut_at_space (by decide) (by decide) hstar with ⟨hend, -⟩ | ⟨later, has⟩
      · cases hend
      rcases cut_at_space (by decide) (by decide) has with ⟨hend, -⟩ | ⟨_, hname⟩
      · cases hend
      · exact absurd (by simp [hname]) name.space_not_mem
  | listed first rest =>
      have hopen : ['{'] ++ ' ' :: ([',', ' '].intercalate ((first :: rest).map Name.chars) ++
          [' ', '}']) = before ++ 't' :: ' ' :: behind := by
        rw [← h]
        simp only [Clause.text, bodyOf, List.append_assoc, List.cons_append, List.nil_append]
      rcases cut_at_space (by decide) (by decide) hopen with ⟨hend, -⟩ | ⟨later, hlater⟩
      · cases hend
      · exact eq_close_of_intercalate hlater

theorem Clause.text_ne_close (clause : Clause) : clause.text ≠ ['}'] := by
  cases clause with
  | default name =>
      intro h
      have hclose : '}' ∉ name.chars := name.isName.not_mem (by decide)
      rw [text] at h
      exact hclose (h ▸ List.mem_cons_self)
  | everything => decide
  | renamed name => exact fun h => absurd (List.cons.inj h).1 (by decide)
  | listed first rest => exact fun h => absurd (List.cons.inj h).1 (by decide)

/-- A text that `import` and a space can be moved through ends in their last two characters. -/
theorem suffix_of_append_import {front moved : List Char} (hne : front ≠ [])
    (h : front ++ (importWord ++ [' ']) = (importWord ++ [' ']) ++ moved) :
    ['t', ' '] <:+ moved := by
  have hlength := congrArg List.length h
  simp only [List.length_append] at hlength
  have hmoved : moved <:+ front ++ (importWord ++ [' ']) := ⟨_, h.symm⟩
  have himport : ['t', ' '] <:+ front ++ (importWord ++ [' ']) :=
    ⟨front ++ ['i', 'm', 'p', 'o', 'r'], by simp [importWord]⟩
  refine List.suffix_of_suffix_length_le himport hmoved ?_
  match front, hne with
  | [_], _ => simp [importWord] at h
  | _ :: _ :: _, _ =>
      simp only [List.length_cons, List.length_nil] at hlength ⊢
      omega

/-- What is written before a path does not end in what is written before another. -/
theorem Clause.eq_nil_of_append_lead {other : Clause} {front : List Char}
    (h : front ++ other.lead = clause.lead) : front = [] := by
  by_contra hne
  have hcut : (front ++ (importWord ++ [' '])) ++ other.text =
      (importWord ++ [' ']) ++ clause.text := by
    refine (List.append_left_inj (' ' :: (fromWord ++ [' ']))).1 ?_
    simpa [Clause.lead] using h
  rcases List.append_eq_append_iff.1 hcut with ⟨missing, hshort, -⟩ | ⟨moved, hmoved, htext⟩
  · have hlength := congrArg List.length hshort
    simp only [List.length_append] at hlength
    exact hne (List.eq_nil_of_length_eq_zero (by omega))
  · obtain ⟨before, rfl⟩ := suffix_of_append_import hne hmoved
    rw [List.append_assoc] at htext
    exact other.text_ne_close (eq_close_of_text_eq htext)

theorem count_quote_text (s : Plain) : s.text.count '\'' = 2 := by
  have hlead : '\'' ∉ s.clause.lead := Clause.not_mem_lead (by decide) (by decide)
  rw [text, List.count_append, List.count_eq_zero.2 hlead, List.count_cons_self, List.count_append,
    List.count_eq_zero.2 s.path.quote_not_mem]
  rfl

/-- A plain statement is written in no plain statement but itself. -/
theorem eq_of_text_infix {s other : Plain} (h : s.text <:+: other.text) : s.text = other.text := by
  obtain ⟨front, rest, heq⟩ := h
  -- both have two quotes, so there is none before or behind
  have hcount := congrArg (List.count '\'') heq
  rw [List.count_append, List.count_append, count_quote_text, count_quote_text] at hcount
  have hfront : '\'' ∉ front := List.count_eq_zero.1 (by omega)
  have hlead : ∀ clause : Clause, '\'' ∉ clause.lead := fun _ =>
    Clause.not_mem_lead (by decide) (by decide)
  have hbefore : '\'' ∉ front ++ s.clause.lead := by simp [hfront, hlead]
  have hcut : (front ++ s.clause.lead) ++ '\'' :: (s.path.chars ++ '\'' :: rest) =
      other.clause.lead ++ '\'' :: (other.path.chars ++ '\'' :: []) := by
    rw [← text, ← heq]
    simp [text]
  obtain ⟨hleads, hpaths⟩ := append_cons_inj_of_not_mem hbefore (hlead _) hcut
  have hnil : front = [] := Clause.eq_nil_of_append_lead hleads
  have hend : rest = [] :=
    (append_cons_inj_of_not_mem s.path.quote_not_mem other.path.quote_not_mem hpaths).2
  rw [← heq, hnil, hend, List.nil_append, List.append_nil]

/-! ## The line of a statement -/

theorem linesOf_lines {statements : List Plain} (hne : statements ≠ []) :
    linesOf (lines statements).toList = statements.map text := by
  have hlines : ∀ line ∈ statements.map text, '\n' ∉ line :=
    List.forall_mem_map.2 fun s _ => s.newline_not_mem_text
  rw [lines, String.toList_ofList, linesOf,
    List.splitOn_intercalate '\n' hlines (mt List.map_eq_nil_iff.1 hne)]

/-- The first line in which a statement is written is the first one that is the statement. -/
theorem findIdx?_occursIn_text {statements : List Plain} {s : Plain} (h : s ∈ statements) :
    (statements.map text).findIdx? (occursIn s.text) =
      some ((statements.map text).idxOf s.text) := by
  have hmem : s.text ∈ statements.map text := List.mem_map_of_mem h
  have hlt := List.idxOf_lt_length_iff.2 hmem
  refine List.findIdx?_eq_some_iff_getElem.2 ⟨hlt, ?_, ?_⟩
  · rw [List.getElem_idxOf hlt, occursIn_iff]
  · intro k hk hfound
    obtain ⟨other, -, hother⟩ := List.mem_map.1 (List.getElem_mem (Nat.lt_trans hk hlt))
    rw [occursIn_iff, ← hother] at hfound
    have hsame : ((statements.map text)[k] == s.text) = true := by
      rw [← hother, eq_of_text_infix hfound]
      exact beq_self_eq_true _
    exact absurd hsame (Bool.eq_false_iff.1 (List.not_of_lt_findIdx hk))

/-- What is kept of a statement that stands among `statements`. -/
def toImport (statements : List Plain) (s : Plain) : Import where
  names := s.clause.names
  specifier := String.ofList s.path.chars
  line := (statements.map text).idxOf s.text + 1

/-- An occurrence of a statement among `statements` is reported as that statement. -/
theorem toImport_eq {statements : List Plain} {s : Plain} (h : s ∈ statements) {o : Occurrence}
    (hwritten : o.written = s.text) (hstatement : o.statement = s.reading) :
    o.toImport (lines statements) = s.toImport statements := by
  have hne : statements ≠ [] := List.ne_nil_of_mem h
  have hline : o.line (lines statements).toList (linesOf (lines statements).toList) =
      (statements.map text).idxOf s.text + 1 := by
    rw [Occurrence.line, linesOf_lines hne, hwritten, findIdx?_occursIn_text h]
  rw [Occurrence.toImport, hline, hstatement, toImport, reading, Clause.names_reading]

/-- What is kept of occurrences of some of the statements, one by one. -/
theorem map_toImport {statements some : List Plain} {found : List Occurrence}
    (h : List.Forall₂ (fun o s => o.written = s.text ∧ o.statement = s.reading) found some)
    (hsome : some ⊆ statements) :
    found.map (Occurrence.toImport (lines statements)) = some.map (toImport statements) := by
  induction h with
  | nil => rfl
  | cons hsame _ ih =>
      obtain ⟨hs, hrest⟩ := List.cons_subset.1 hsome
      rw [List.map_cons, List.map_cons, toImport_eq hs hsame.1 hsame.2, ih hrest]

end Plain

open Plain Statement

/-- Plain statements on lines of their own, however many, are read back as what they were written
from, one import for each of them and in their order. Each is reported on the first line that is
the same statement. -/
theorem importsOf_lines (statements : List Plain) :
    importsOf (lines statements) = statements.map fun s =>
      { names := s.clause.names
        specifier := String.ofList s.path.chars
        line := (statements.map text).idxOf s.text + 1 } := by
  have hfound : List.Forall₂ (fun o s => o.written = s.text ∧ o.statement = s.reading)
      (scan 0 (lines statements).toList) statements := by
    rw [lines, String.toList_ofList]
    exact forall₂_scan_lines 0 statements
  exact map_toImport hfound (List.Subset.refl statements)

example :
    let path : Plain.Path :=
      ⟨['m'], List.cons_ne_nil _ _, List.forall_mem_singleton.2 rfl, by decide⟩
    let name : Name := ⟨importWord, isName_importWord⟩
    let other : Name := ⟨asWord, isName_asWord⟩
    lines [⟨.default name, path⟩, ⟨.everything, path⟩, ⟨.renamed name, path⟩,
      ⟨.listed name [other], path⟩] =
        "import import from 'm'\nimport * from 'm'\nimport * as import from 'm'\n" ++
        "import \x7b import, as \x7d from 'm'" := by
  decide +kernel

end ModuleGraph
