import Mathlib.Data.List.DropRight
import Mathlib.Data.List.Forall2
import ModuleGraph.Proofs.Statement.Names
import ModuleGraph.Proofs.Statement.Unambiguous
import ModuleGraph.Proofs.Text.Trim

/-!
# The names in the text of a clause

What a clause imports can be told from its text. `ClauseNames` says how, by the three forms that a
clause has, and for a list without a word on how it is taken apart: its entries are what stands
between the commas with the blanks around it off, as far as anything is left.

`namesIn` works the names out from the text alone. It goes by the first character and takes braces
off both ends, however many, so it would go wrong on a list that ends in two closing braces, or on
a name that has a comma in it. No clause of an import statement is of this kind: nothing between the
braces of a list is a closing brace, and a name is made of word characters. So it agrees with the
forms (`ClauseNames.eq_namesIn`), and what holds of all names is seen from the forms.
-/

namespace ModuleGraph

open Text

variable {cs body part piece entry : List Char} {entries : List (List Char)} {names : List String}

/-! ## The entries of a list -/

/-- `entry` is left of `piece` when the blanks are cut off both ends. -/
def IsTrimmed (piece entry : List Char) : Prop :=
  (∃ before after, Blanks before ∧ Blanks after ∧ piece = before ++ (entry ++ after)) ∧
    Stops isBlank entry ∧ Stops isBlank entry.reverse

/-- `entries` are the pieces of `body` between its commas, from left to right, each without the
blanks around it, and only those that are not empty then. -/
def IsEntries (body : List Char) (entries : List (List Char)) : Prop :=
  ∃ pieces trimmed : List (List Char),
    pieces ≠ [] ∧ (∀ piece ∈ pieces, ',' ∉ piece) ∧ body = [','].intercalate pieces ∧
    List.Forall₂ IsTrimmed pieces trimmed ∧ entries = trimmed.filter (!·.isEmpty)

/-- The entries of a list, worked out. -/
def entriesOf (body : List Char) : List (List Char) :=
  ((body.splitOn ',').map trim).filter (!·.isEmpty)

theorem isTrimmed_iff : IsTrimmed piece entry ↔ trim piece = entry := by
  constructor
  · rintro ⟨⟨before, after, hbefore, hafter, rfl⟩, hfirst, hlast⟩
    exact trim_append_of_stops hbefore hafter hfirst hlast
  · rintro rfl
    exact ⟨exists_eq_append_trim piece, stops_trim piece, stops_reverse_trim piece⟩

theorem forall₂_isTrimmed_iff {pieces trimmed : List (List Char)} :
    List.Forall₂ IsTrimmed pieces trimmed ↔ pieces.map trim = trimmed := by
  have hrel : IsTrimmed = fun piece entry => trim piece = entry :=
    funext fun piece => funext fun entry => propext isTrimmed_iff
  rw [hrel, ← List.forall₂_map_left_iff, List.forall₂_eq_eq_eq]

/-- A list has its entries in one way. -/
theorem isEntries_iff : IsEntries body entries ↔ entries = entriesOf body := by
  constructor
  · rintro ⟨pieces, trimmed, hne, hcomma, rfl, htrimmed, rfl⟩
    rw [entriesOf, List.splitOn_intercalate ',' hcomma hne, forall₂_isTrimmed_iff.1 htrimmed]
  · rintro rfl
    exact ⟨body.splitOn ',', (body.splitOn ',').map trim, List.splitOn_ne_nil _ _,
      fun piece => not_mem_of_mem_splitOn, (List.intercalate_splitOn ',').symm,
      forall₂_isTrimmed_iff.2 rfl, rfl⟩

theorem mem_entriesOf (h : entry ∈ entriesOf body) :
    ∃ piece ∈ body.splitOn ',', trim piece = entry ∧ entry ≠ [] := by
  obtain ⟨htrimmed, hne⟩ := List.mem_filter.1 h
  obtain ⟨piece, hpiece, rfl⟩ := List.mem_map.1 htrimmed
  refine ⟨piece, hpiece, rfl, ?_⟩
  rintro hnil
  rw [hnil] at hne
  cases hne

/-- A list has no entries if nothing but commas and blanks is in it. -/
theorem entriesOf_eq_nil_iff : entriesOf body = [] ↔ ∀ c ∈ body, c = ',' ∨ isBlank c = true := by
  constructor
  · intro hnone c hc
    by_cases hcomma : c = ','
    · exact Or.inl hcomma
    · obtain ⟨piece, hpiece, hmem⟩ := exists_mem_splitOn hc hcomma
      have hnil : trim piece = [] := by
        by_contra hne
        have hentry : trim piece ∈ entriesOf body :=
          List.mem_filter.2 ⟨List.mem_map_of_mem hpiece, by simpa using hne⟩
        rw [hnone] at hentry
        cases hentry
      exact Or.inr (trim_eq_nil_iff.1 hnil c hmem)
  · intro hall
    refine List.eq_nil_iff_forall_not_mem.2 fun entry hentry => ?_
    obtain ⟨piece, hpiece, rfl, hne⟩ := mem_entriesOf hentry
    refine hne (trim_eq_nil_iff.2 fun c hc => ?_)
    rcases hall c (subset_of_mem_splitOn hpiece hc) with rfl | hblank
    · exact absurd hc (not_mem_of_mem_splitOn hpiece)
    · exact hblank

/-- A text without a comma, and with no blank at either end, is the entry of itself. -/
theorem entriesOf_eq_singleton (hne : cs ≠ []) (hcomma : ',' ∉ cs) (htrim : trim cs = cs) :
    entriesOf cs = [cs] := by
  rw [entriesOf, List.splitOn_eq_singleton hcomma, List.map_singleton, htrim]
  exact List.filter_cons_of_pos (by simpa using hne)

/-! ## The forms of a clause -/

/-- The names in a clause, by the form of its text. -/
inductive ClauseNames : List Char → List String → Prop
  | everything (rest : List Char) : ClauseNames ('*' :: rest) [wildcard]
  | default {name : List Char} : IsName name → ClauseNames name [String.ofList name]
  | listed {body : List Char} {entries : List (List Char)} : '}' ∉ body →
      IsEntries (body.dropWhile (· == '{')) entries →
      ClauseNames ('{' :: (body ++ ['}'])) (entries.map String.ofList)

theorem clauseNames_of_written {clause : Clause} (h : clause.Written part) :
    ClauseNames part clause.names := by
  cases h with
  | listed _ hbody => exact .listed (fun hmem => hbody _ hmem rfl) (isEntries_iff.2 rfl)
  | everything => exact .everything []
  | renamed => exact .everything _
  | default hname => exact .default hname

/-- The names in the text of a clause, worked out from its first character, and with the braces at
its ends taken off. -/
def namesIn (part : List Char) : List String :=
  let part := trim part
  if part.head? = some '*' then [wildcard]
  else (entriesOf ((part.dropWhile (· == '{')).rdropWhile (· == '}'))).map String.ofList

/-- Of the braces around a list, and all that are taken off with them, the ones inside are passed
over at the front only. -/
theorem rdropWhile_listed (h : '}' ∉ body) :
    (('{' :: (body ++ ['}'])).dropWhile (· == '{')).rdropWhile (· == '}') =
      body.dropWhile (· == '{') := by
  have hfront : ('{' :: (body ++ ['}'])).dropWhile (· == '{') =
      body.dropWhile (· == '{') ++ ['}'] := by
    rw [List.dropWhile_cons_of_pos (by decide), List.dropWhile_append]
    split
    · next hnone =>
      rw [List.isEmpty_iff.1 hnone]
      rfl
    · rfl
  rw [hfront, List.rdropWhile_concat_pos _ _ _ (by decide), List.rdropWhile_eq_self_iff]
  intro hne hlast
  have hmem := (List.dropWhile_sublist (· == '{')).mem (List.getLast_mem hne)
  rw [eq_of_beq hlast] at hmem
  exact h hmem

theorem stops_reverse_listed (body : List Char) :
    Stops isBlank ('{' :: (body ++ ['}'])).reverse := by
  rw [← List.cons_append, List.reverse_append]
  exact stops_cons.2 (by decide)

/-- The text of a clause has one form, and its names are those that are worked out. -/
theorem ClauseNames.eq_namesIn (h : ClauseNames part names) : names = namesIn part := by
  cases h with
  | everything rest =>
      rw [namesIn]
      exact (if_pos (head?_trim (by decide) rest)).symm
  | default hname =>
      have htrim : trim part = part := trim_eq_self hname.stops hname.stops_reverse
      have hstar : part.head? ≠ some '*' := by
        intro hhead
        exact hname.not_mem (by decide) (List.mem_of_head? hhead)
      have hfront : part.dropWhile (· == '{') = part := by
        rw [List.dropWhile_eq_self_iff]
        intro hpos hbrace
        have hmem := List.getElem_mem hpos
        rw [eq_of_beq hbrace] at hmem
        exact hname.not_mem (by decide) hmem
      have hend : part.rdropWhile (· == '}') = part := by
        rw [List.rdropWhile_eq_self_iff]
        intro hne hbrace
        have hmem := List.getLast_mem hne
        rw [eq_of_beq hbrace] at hmem
        exact hname.not_mem (by decide) hmem
      have hentries : entriesOf part = [part] :=
        entriesOf_eq_singleton hname.1 (hname.not_mem (by decide)) htrim
      simp only [namesIn]
      rw [htrim, if_neg hstar, hfront, hend, hentries, List.map_singleton]
  | @listed body entries hbody hentries =>
      have htrim : trim ('{' :: (body ++ ['}'])) = '{' :: (body ++ ['}']) :=
        trim_eq_self (stops_cons.2 (by decide)) (stops_reverse_listed body)
      simp only [namesIn]
      rw [htrim, List.head?_cons, if_neg (by decide), rdropWhile_listed hbody,
        isEntries_iff.1 hentries]

/-! ## What holds of every name -/

/-- A name that an import can have. -/
structure IsTidy (name : String) : Prop extends IsEntry name where
  no_brace : '}' ∉ name.toList
  first : Stops isBlank name.toList
  last : Stops isBlank name.toList.reverse

theorem isTidy_ofList (hne : cs ≠ []) (hcomma : ',' ∉ cs) (hbrace : '}' ∉ cs)
    (hfirst : Stops isBlank cs) (hlast : Stops isBlank cs.reverse) : IsTidy (String.ofList cs) := by
  rw [← String.toList_ofList (l := cs)] at hne hcomma hbrace hfirst hlast
  exact ⟨⟨hne, hcomma⟩, hbrace, hfirst, hlast⟩

theorem ClauseNames.isTidy_of_mem (h : ClauseNames part names) {name : String}
    (hname : name ∈ names) : IsTidy name := by
  cases h with
  | everything rest =>
      have hstops : Stops isBlank ['*'] := stops_cons.2 (by decide)
      rw [List.mem_singleton.1 hname]
      show IsTidy (String.ofList ['*'])
      exact isTidy_ofList (List.cons_ne_nil _ _) (by decide) (by decide) hstops hstops
  | default hpart =>
      rw [List.mem_singleton.1 hname]
      exact isTidy_ofList hpart.1 (hpart.not_mem (by decide)) (hpart.not_mem (by decide))
        hpart.stops hpart.stops_reverse
  | @listed body entries hbody hentries =>
      obtain ⟨entry, hentry, rfl⟩ := List.mem_map.1 hname
      rw [isEntries_iff.1 hentries] at hentry
      obtain ⟨piece, hpiece, rfl, hne⟩ := mem_entriesOf hentry
      refine isTidy_ofList hne ?_ ?_ (stops_trim piece) (stops_reverse_trim piece)
      · intro hcomma
        exact not_mem_of_mem_splitOn hpiece (mem_of_mem_trim hcomma)
      · intro hbrace
        have hrest := subset_of_mem_splitOn hpiece (mem_of_mem_trim hbrace)
        exact hbody ((List.dropWhile_sublist _).mem hrest)

theorem ClauseNames.eq_nil_iff (h : ClauseNames part names) :
    names = [] ↔ ∃ body, part = '{' :: (body ++ ['}']) ∧
      ∀ c ∈ body.dropWhile (· == '{'), c = ',' ∨ isBlank c = true := by
  cases h with
  | everything rest =>
      refine iff_of_false (List.cons_ne_nil _ _) ?_
      rintro ⟨body, hpart, -⟩
      cases hpart
  | default hname =>
      refine iff_of_false (List.cons_ne_nil _ _) ?_
      rintro ⟨body, rfl, -⟩
      exact hname.not_mem (by decide) List.mem_cons_self
  | @listed body entries hbody hentries =>
      rw [List.map_eq_nil_iff, isEntries_iff.1 hentries, entriesOf_eq_nil_iff]
      constructor
      · intro hall
        exact ⟨body, rfl, hall⟩
      · rintro ⟨body', hpart, hall⟩
        rw [List.append_cancel_right (List.cons.inj hpart).2]
        exact hall

namespace Statement

/-! ## The clause that is captured -/

/-- The text of the clause in a reading of a statement. -/
def clauseText : importPattern.Reading → List Char
  | (_, _, (clause, _, _), _) => clausePattern.text clause

theorem written_clauseText {t : importPattern.Reading} (h : importPattern.Valid t) :
    (statementOf t).clause.Written (clauseText t) := by
  obtain ⟨⟨⟩, b₁, ⟨clause, b₂, ⟨⟩⟩, b₃, quoted⟩ := t
  obtain ⟨-, -, ⟨hclause, -⟩, -⟩ := h
  exact written_clauseOf hclause

/-- Every reading of what is written says the same. -/
theorem statementOf_eq {s : Statement} {front : List Char} {t : importPattern.Reading}
    (h : s.Written front) (hvalid : importPattern.Valid t) (htext : importPattern.text t = front) :
    statementOf t = s := by
  have hread : (statementOf t).Written front := htext ▸ written_statementOf hvalid
  exact (written_unique hread h (List.prefix_refl front) (List.prefix_refl front)).1

end Statement

open Statement

/-- Each import of a text comes from an occurrence that the import pattern reads. Its names are told
by the clause in that reading, by the form of the clause as by the way to work them out. None of
them is empty, has a blank at either end, or holds a comma or a closing brace. There is none exactly
if the clause is a list that holds nothing but commas and blanks behind its opening braces. -/
theorem importsOf_names (text : String) :
    importsOf text = (scan 0 text.toList).map (Occurrence.toImport text) ∧
    ∀ o ∈ scan 0 text.toList,
      (∃ t, importPattern.Valid t ∧ importPattern.text t = o.written) ∧
      ∀ t, importPattern.Valid t → importPattern.text t = o.written →
        let part := clauseText t
        let names := (o.toImport text).names
        ClauseNames part names ∧ names = namesIn part ∧ (∀ name ∈ names, IsTidy name) ∧
        (names = [] ↔ ∃ body, part = '{' :: (body ++ ['}']) ∧
          ∀ c ∈ body.dropWhile (· == '{'), c = ',' ∨ isBlank c = true) := by
  refine ⟨rfl, fun o ho => ?_⟩
  have hwritten : o.statement.Written o.written := written_of_mem_scan ho
  constructor
  · obtain ⟨t, ht⟩ := exists_reads_of_written hwritten []
    exact ⟨t, ht.valid, List.append_cancel_right ht.eq_append.symm⟩
  · intro t hvalid htext part names
    have hnames : ClauseNames part names := by
      have hpart := clauseNames_of_written (written_clauseText hvalid)
      rw [statementOf_eq hwritten hvalid htext] at hpart
      exact hpart
    exact ⟨hnames, hnames.eq_namesIn, fun name => hnames.isTidy_of_mem, hnames.eq_nil_iff⟩

/-- A list that opens with two braces, names one thing twice and has an empty piece in it. -/
theorem importsOf_names_of_list :
    let text := "import \x7b\x7b a, b ,, a\n\x7d from './x'"
    let body := "\x7b a, b ,, a\n".toList
    let o : Occurrence := ⟨0, text.toList, ⟨.listed body, "./x".toList⟩⟩
    let t : importPattern.Reading :=
      ((), [' '], (.inl ((), body, ()), [' '], ()), [' '], '\'', "./x".toList, '\'')
    o ∈ scan 0 text.toList ∧ importPattern.Valid t ∧ importPattern.text t = o.written ∧
    ClauseNames (clauseText t) ["a", "b", "a"] ∧ ∀ name ∈ ["a", "b", "a"], IsTidy name := by
  intro text body o t
  obtain ⟨-, hall⟩ := importsOf_names text
  have ho : o ∈ scan 0 text.toList := by decide +kernel
  have hblank : (Pattern.run 1 isBlank).Valid [' '] := ⟨Nat.le_refl 1, blanks_space⟩
  have hbody : body.all (· != '}') = true := by decide
  have hlist : listPattern.Valid ((), body, ()) :=
    ⟨trivial, ⟨by decide, List.all_eq_true.1 hbody⟩, trivial⟩
  have hquote : isQuote '\'' = true := by decide
  have hchars : "./x".toList.all (!isQuote ·) = true := by decide
  have hpath : quotedPattern.Valid ('\'', "./x".toList, '\'') :=
    ⟨hquote, ⟨by decide, List.all_eq_true.1 hchars⟩, hquote⟩
  have hvalid : importPattern.Valid t :=
    ⟨trivial, ⟨Nat.zero_le 1, blanks_space⟩, ⟨hlist, ⟨Nat.zero_le 1, blanks_space⟩, trivial⟩,
      hblank, hpath⟩
  have htext : importPattern.text t = o.written := by decide +kernel
  obtain ⟨-, hnames⟩ := hall o ho
  obtain ⟨hforms, -, htidy, -⟩ := hnames t hvalid htext
  have hkept : (o.toImport text).names = ["a", "b", "a"] := by decide +kernel
  rw [hkept] at hforms htidy
  exact ⟨ho, hvalid, htext, hforms, htidy⟩

end ModuleGraph
