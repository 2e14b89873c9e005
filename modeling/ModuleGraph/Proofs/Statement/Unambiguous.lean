import ModuleGraph.Proofs.Statement.Pattern
import ModuleGraph.Proofs.Statement.Scan

/-!
# The import pattern is unambiguous

`importPattern` is the shape of import statements as one pattern. Its readings are the spellings of
the grammar (`written_statementOf`, `exists_reads_of_written`), cut into the parts of the pattern.

At any place of a text there is one reading at most (`uniqueBefore_importPattern`). Part by part
this is seen from the character behind the part: a run of blanks ends before a letter or a quote, a
name before a blank, a path before a quote. It cannot be seen so in one place, where a clause is
followed by `from` with blanks before it or without: `importafromfrom` could go on with a path or
with `from`. The reader accounts for this choice already. It finds the same clause and the same end
of `from` in every spelling that has a path ahead, so two readings can only differ in how they share
out what stands before the `from`, and in this they do not differ (`eq_of_clauseOf_eq`).

Where there is one reading it does not matter by which rule a matcher takes one. Every choice reads
what `read?` reads, so it finds the same statements in a text, and the same imports.
-/

namespace ModuleGraph

open Text Pattern

namespace Statement

/-! ## The pattern -/

def someBlanks : Pattern := .run 1 isBlank

def anyBlanks : Pattern := .run 0 isBlank

def namePattern : Pattern := .run 1 isWord

/-- A list in braces. -/
def listPattern : Pattern :=
  .seq (.word ['{']) (.seq (.run 1 (· != '}')) (.word ['}']))

/-- What may stand behind a `*`. -/
def aliasPattern : Pattern :=
  .seq someBlanks (.seq (.word asWord) (.seq someBlanks namePattern))

def clausePattern : Pattern :=
  .either listPattern (.either (.seq (.word ['*']) (.maybe aliasPattern)) namePattern)

/-- A clause with the `from` behind it. -/
def clauseFromPattern : Pattern :=
  .seq clausePattern (.seq anyBlanks (.word fromWord))

def quotedPattern : Pattern :=
  .seq (.one isQuote) (.seq (.run 1 (!isQuote ·)) (.one isQuote))

/-- The whole statement. -/
def importPattern : Pattern :=
  .seq (.word importWord) (.seq anyBlanks (.seq clauseFromPattern (.seq someBlanks quotedPattern)))

theorem text_clauseFrom (t : clausePattern.Reading) (b : List Char) :
    clauseFromPattern.text (t, b, ()) = clausePattern.text t ++ (b ++ fromWord) := rfl

/-- What a reading of a clause says. -/
def clauseOf : clausePattern.Reading → Clause
  | .inl (_, body, _) => .listed body
  | .inr (.inl (_, none)) => .everything none
  | .inr (.inl (_, some (_, _, _, name))) => .everything (some name)
  | .inr (.inr name) => .default name

/-- What a reading of the whole says: its clause, and the path between the quotes. -/
def statementOf : importPattern.Reading → Statement
  | (_, _, (clause, _, _), _, _, path, _) => ⟨clauseOf clause, path⟩

/-! ## Readings and spellings -/

variable {cs front : List Char}

theorem ne_nil_of_valid_run {p : Char → Bool} (h : (run 1 p).Valid cs) : cs ≠ [] :=
  List.ne_nil_of_length_pos h.1

theorem valid_run_of_ne_nil {p : Char → Bool} (hne : cs ≠ []) (h : ∀ c ∈ cs, p c = true) :
    (run 1 p).Valid cs :=
  ⟨List.length_pos_iff.2 hne, h⟩

theorem written_clauseOf {t : clausePattern.Reading} (h : clausePattern.Valid t) :
    (clauseOf t).Written (clausePattern.text t) := by
  rcases t with ⟨⟨⟩, body, ⟨⟩⟩ | ⟨⟨⟩, _ | ⟨b₁, ⟨⟩, b₂, name⟩⟩ | name
  · obtain ⟨-, hbody, -⟩ := h
    exact .listed (ne_nil_of_valid_run hbody) fun c hc => by simpa using hbody.2 c hc
  · exact .everything
  · obtain ⟨-, hb₁, -, hb₂, hname⟩ := h
    exact .renamed hb₁.2 (ne_nil_of_valid_run hb₁) hb₂.2 (ne_nil_of_valid_run hb₂)
      ⟨ne_nil_of_valid_run hname, hname.2⟩
  · exact .default ⟨ne_nil_of_valid_run h, h.2⟩

theorem quoted_of_valid {t : quotedPattern.Reading} (h : quotedPattern.Valid t) :
    Quoted t.2.1 (quotedPattern.text t) := by
  obtain ⟨hq₁, hpath, hq₂⟩ := h
  exact .mk hq₁ (ne_nil_of_valid_run hpath) (fun c hc => by simpa using hpath.2 c hc) hq₂

/-- What is read is a spelling of what the reading says. -/
theorem written_statementOf {t : importPattern.Reading} (h : importPattern.Valid t) :
    (statementOf t).Written (importPattern.text t) := by
  obtain ⟨⟨⟩, b₁, ⟨clause, b₂, ⟨⟩⟩, b₃, quoted⟩ := t
  obtain ⟨-, hb₁, ⟨hclause, hb₂, -⟩, hb₃, hquoted⟩ := h
  have hw := Written.mk hb₁.2 (written_clauseOf hclause) hb₂.2 hb₃.2 (ne_nil_of_valid_run hb₃)
    (quoted_of_valid hquoted)
  rw [← List.append_assoc b₂, ← List.append_assoc (clausePattern.text clause)] at hw
  exact hw

theorem exists_valid_of_clause {clause : Clause} (h : clause.Written front) :
    ∃ t, clausePattern.Valid t ∧ clausePattern.text t = front := by
  cases h with
  | @listed body hne hbody =>
      refine ⟨.inl ((), body, ()), ⟨trivial, valid_run_of_ne_nil hne ?_, trivial⟩, rfl⟩
      intro c hc
      simpa using hbody c hc
  | everything => exact ⟨.inr (.inl ((), none)), ⟨trivial, trivial⟩, rfl⟩
  | @renamed b₁ b₂ name hb₁ hne₁ hb₂ hne₂ hname =>
      exact ⟨.inr (.inl ((), some (b₁, (), b₂, name))), ⟨trivial, valid_run_of_ne_nil hne₁ hb₁,
        trivial, valid_run_of_ne_nil hne₂ hb₂, valid_run_of_ne_nil hname.1 hname.2⟩, rfl⟩
  | default hname => exact ⟨.inr (.inr front), valid_run_of_ne_nil hname.1 hname.2, rfl⟩

/-- Every spelling is read. -/
theorem exists_reads_of_written {s : Statement} (h : s.Written front) (rest : List Char) :
    ∃ t, importPattern.Reads (front ++ rest) (t, rest) := by
  cases h with
  | @mk clause path part quoted b₁ b₂ b₃ hb₁ hpart hb₂ hb₃ hne₃ hquoted =>
      obtain ⟨t, ht, rfl⟩ := exists_valid_of_clause hpart
      cases hquoted with
      | @mk q₁ q₂ hq₁ hne hpath hq₂ =>
          refine ⟨((), b₁, (t, b₂, ()), b₃, q₁, path, q₂), ⟨⟨trivial, ⟨Nat.zero_le _, hb₁⟩,
            ⟨ht, ⟨Nat.zero_le _, hb₂⟩, trivial⟩, valid_run_of_ne_nil hne₃ hb₃, hq₁,
            valid_run_of_ne_nil hne ?_, hq₂⟩, ?_⟩⟩
          · intro c hc
            simpa using hpath c hc
          · simp only [importPattern, clauseFromPattern, quotedPattern, someBlanks, anyBlanks, text,
              List.append_assoc, List.cons_append, List.nil_append]

/-! ## Parts that are told by what follows them -/

variable {follows : List Char → Prop}

theorem uniqueBefore_quoted : quotedPattern.UniqueBefore follows := by
  refine uniqueBefore_seq_of_always (uniqueBefore_one _) ?_
  refine uniqueBefore_seq _ (uniqueBefore_run _ _) (uniqueBefore_one _) ?_
  intro cs way h _
  have hquote : isQuote way.1 = true := h.valid
  rw [h.eq_append]
  exact stops_cons.2 (by rw [hquote]; rfl)

/-- Blanks before something that begins with no blank. -/
theorem uniqueBefore_blanks {least : Nat} {s : Pattern} (hs : s.UniqueBefore follows)
    (hstop : ∀ t rest, s.Valid t → Stops isBlank (s.text t ++ rest)) :
    (seq (run least isBlank) s).UniqueBefore follows := by
  refine uniqueBefore_seq _ (uniqueBefore_run _ _) hs ?_
  intro cs way h _
  rw [h.eq_append]
  exact hstop _ _ h.valid

theorem uniqueBefore_path : (seq someBlanks quotedPattern).UniqueBefore follows := by
  refine uniqueBefore_blanks uniqueBefore_quoted ?_
  intro t rest h
  exact stops_cons.2 (isBlank_eq_false_of_isQuote h.1)

theorem stops_isBlank_of_name {name : List Char} (rest : List Char) (h : namePattern.Valid name) :
    Stops isBlank (name ++ rest) :=
  stops_isBlank_of_isName ⟨ne_nil_of_valid_run h, h.2⟩

theorem uniqueBefore_alias : aliasPattern.UniqueBefore (Stops isWord) := by
  refine uniqueBefore_blanks ?_ fun t rest _ => ?_
  · refine uniqueBefore_seq_of_always (uniqueBefore_word _) ?_
    refine uniqueBefore_blanks (uniqueBefore_run _ _) ?_
    intro name rest h
    exact stops_isBlank_of_name rest h
  · exact stops_cons.2 (by decide)

/-- Readings of one text that say the same clause are the same, if no word character follows. -/
theorem eq_of_clauseOf_eq {t t' : clausePattern.Reading} {rest rest' : List Char}
    (h : clausePattern.Reads cs (t, rest)) (h' : clausePattern.Reads cs (t', rest'))
    (hstop : Stops isWord rest) (hstop' : Stops isWord rest') (heq : clauseOf t = clauseOf t') :
    t = t' ∧ rest = rest' := by
  have hcs : clausePattern.text t ++ rest = clausePattern.text t' ++ rest' :=
    h.eq_append.symm.trans h'.eq_append
  -- readings of different forms say different clauses
  rcases t with ⟨⟨⟩, body, ⟨⟩⟩ | ⟨⟨⟩, _ | named⟩ | name <;>
    rcases t' with ⟨⟨⟩, body', ⟨⟩⟩ | ⟨⟨⟩, _ | named'⟩ | name' <;>
    try cases heq
  · exact ⟨rfl, List.append_cancel_left hcs⟩
  · exact ⟨rfl, List.append_cancel_left hcs⟩
  · have hnamed : aliasPattern.text named ++ rest = aliasPattern.text named' ++ rest' :=
      (List.cons.inj hcs).2
    cases uniqueBefore_alias _ (named, rest) (named', rest') ⟨h.valid.2, rfl⟩
      ⟨h'.valid.2, hnamed⟩ hstop hstop'
    exact ⟨rfl, rfl⟩
  · exact ⟨rfl, List.append_cancel_left hcs⟩

variable {t : clausePattern.Reading} {b rest : List Char}

theorem eq_append_of_reads (h : clauseFromPattern.Reads cs ((t, b, ()), rest)) :
    cs = clausePattern.text t ++ (b ++ (fromWord ++ rest)) := by
  have hcs := h.eq_append
  rw [text_clauseFrom, List.append_assoc, List.append_assoc] at hcs
  exact hcs

/-- Before a path, the reader ends a clause where any reading does. -/
theorem clauseThenFrom?_of_reads (h : clauseFromPattern.Reads cs ((t, b, ()), rest))
    (hahead : PathAhead rest) : clauseThenFrom? cs = some (clauseOf t, rest) := by
  obtain ⟨ht, hb, -⟩ := h.valid
  rw [eq_append_of_reads h]
  exact clauseThenFrom?_append (written_clauseOf ht) hb.2 hahead

/-- The reader decides which `from` is meant, and then the clause before it is read in one way. -/
theorem uniqueBefore_clauseFrom : clauseFromPattern.UniqueBefore PathAhead := by
  have hstops : ∀ {b : List Char}, Blanks b → Stops isWord b := fun hb c hc =>
    isWord_eq_false_of_isBlank (hb c (List.mem_of_head? hc))
  rintro cs ⟨⟨t, (b : List Char), ⟨⟩⟩, rest⟩ ⟨⟨t', (b' : List Char), ⟨⟩⟩, rest'⟩ h h' hahead hahead'
  obtain ⟨ht, ⟨-, hb⟩, -⟩ := h.valid
  obtain ⟨ht', ⟨-, hb'⟩, -⟩ := h'.valid
  have hcs := eq_append_of_reads h
  have hcs' := eq_append_of_reads h'
  have hread := clauseThenFrom?_of_reads h hahead
  have hread' := clauseThenFrom?_of_reads h' hahead'
  rw [hread] at hread'
  obtain ⟨hclause, rfl⟩ := Prod.mk.inj (Option.some.inj hread')
  have hfront : clausePattern.text t ++ b = clausePattern.text t' ++ b' := by
    rw [hcs, ← List.append_assoc, ← List.append_assoc (clausePattern.text t')] at hcs'
    exact List.append_cancel_right hcs'
  obtain ⟨rfl, rfl⟩ := eq_of_clauseOf_eq ⟨ht, rfl⟩ ⟨ht', hfront⟩ (hstops hb) (hstops hb') hclause
  rfl

theorem pathAhead_of_reads {cs : List Char}
    {way : (seq someBlanks quotedPattern).Reading × List Char}
    (h : (seq someBlanks quotedPattern).Reads cs way) : PathAhead cs := by
  obtain ⟨⟨b, quoted⟩, rest⟩ := way
  obtain ⟨hb, hquoted⟩ := h.valid
  have hcs := h.eq_append
  rw [text, List.append_assoc] at hcs
  rw [hcs]
  exact pathAhead_of_quoted hb.2 (ne_nil_of_valid_run hb) (quoted_of_valid hquoted)

theorem uniqueBefore_importPattern : importPattern.UniqueBefore fun _ => True := by
  refine uniqueBefore_seq_of_always (uniqueBefore_word _) ?_
  refine uniqueBefore_blanks ?_ ?_
  · refine uniqueBefore_seq PathAhead uniqueBefore_clauseFrom uniqueBefore_path ?_
    intro cs way h _
    exact pathAhead_of_reads h
  · rintro ⟨⟨clause, (b : List Char), ⟨⟩⟩, path⟩ rest ⟨⟨hclause, -⟩, -⟩
    show Stops isBlank ((clausePattern.text clause ++ (b ++ fromWord)) ++
      (seq someBlanks quotedPattern).text path ++ rest)
    rw [List.append_assoc, List.append_assoc]
    exact stops_isBlank_of_clause (written_clauseOf hclause)

/-! ## Whatever is chosen is what the reader reads -/

variable {choice : Choice importPattern}

theorem map_pick (choice : Choice importPattern) (cs : List Char) :
    (choice.pick cs).map (fun way => (statementOf way.1, way.2)) = read? cs := by
  cases hpick : choice.pick cs with
  | some way =>
      obtain ⟨hvalid, hcs⟩ := choice.reads hpick
      rw [hcs, read?_append (written_statementOf hvalid)]
      rfl
  | none =>
      cases hread : read? cs with
      | none => rfl
      | some found =>
          obtain ⟨s, rest⟩ := found
          obtain ⟨front, hw, rfl⟩ := read?_eq_some_iff.1 hread
          obtain ⟨t, ht⟩ := exists_reads_of_written hw rest
          exact absurd hpick (choice.takes ht)

theorem length_lt_of_pick {way : importPattern.Reading × List Char}
    (h : choice.pick cs = some way) : way.2.length < cs.length := by
  have hread := map_pick choice cs
  rw [h] at hread
  exact length_lt_of_read? hread.symm

/-- The statements of a text from left to right, when each is read in the way that is chosen. -/
def scanBy (choice : Choice importPattern) (offset : Nat) : List Char → List Occurrence
  | [] => []
  | c :: cs =>
    match h : choice.pick (c :: cs) with
    | some way =>
      let written := importPattern.text way.1
      ⟨offset, written, statementOf way.1⟩ :: scanBy choice (offset + written.length) way.2
    | none => scanBy choice (offset + 1) cs
termination_by cs => cs.length
decreasing_by
  · exact length_lt_of_pick h
  · simp

theorem scanBy_eq_scan (choice : Choice importPattern) (offset : Nat) (cs : List Char) :
    scanBy choice offset cs = scan offset cs := by
  fun_induction scanBy choice offset cs with
  | case1 offset => rw [scan]
  | case2 offset c cs way h written ih =>
      have hread : read? (c :: cs) = some (statementOf way.1, way.2) := by
        rw [← map_pick choice, h]
        rfl
      have hcs : c :: cs = written ++ way.2 := (choice.reads h).eq_append
      have hsize : (c :: cs).length - way.2.length = written.length := by
        rw [hcs, List.length_append, Nat.add_sub_cancel]
      have htake : (c :: cs).take written.length = written := by
        rw [hcs, List.take_left]
      rw [scan]
      split
      · next heq =>
        cases hread.symm.trans heq
        simp only [hsize, htake, ih]
      · next heq =>
        cases hread.symm.trans heq
  | case3 offset c cs h ih =>
      have hread : read? (c :: cs) = none := by
        rw [← map_pick choice, h]
        rfl
      rw [scan]
      split
      · next heq =>
        cases hread.symm.trans heq
      · exact ih

end Statement

open Statement

/-- The imports of a text, when each statement is read in the way that is chosen. -/
def importsBy (choice : Choice importPattern) (text : String) : List Import :=
  (scanBy choice 0 text.toList).map (Occurrence.toImport text)

theorem importsBy_eq_importsOf (choice : Choice importPattern) (text : String) :
    importsBy choice text = importsOf text := by
  rw [importsBy, scanBy_eq_scan]
  rfl

/-- At each place of a text the import pattern is read in one way at most, with one end and one
length for each of its parts. So the imports of a text are the same by any rule for taking one of
the ways, and in particular if matches are leftmost-first, leftmost-longest or lazy. -/
theorem importPattern_unambiguous :
    (∀ (cs : List Char) (start : Nat) (way way' : importPattern.Reading × List Char),
      importPattern.Reads (cs.drop start) way → importPattern.Reads (cs.drop start) way' →
      way = way') ∧
    (∀ (choice : Choice importPattern) (text : String), importsBy choice text = importsOf text) ∧
    ∀ text, importsBy (.leftmostFirst importPattern) text =
        importsBy (.leftmostLongest importPattern) text ∧
      importsBy (.leftmostFirst importPattern) text = importsBy (.lazy importPattern) text := by
  refine ⟨?_, importsBy_eq_importsOf, ?_⟩
  · intro cs start way way' h h'
    exact uniqueBefore_importPattern _ way way' h h' trivial trivial
  · intro text
    simp only [importsBy_eq_importsOf, and_self]

/-- A name that ends in `from`, with no blank before the `from` behind it. -/
theorem importPattern_unambiguous_fromfrom :
    let cs := "let x; importafromfrom 'x'".toList
    let way : importPattern.Reading × List Char :=
      (((), [], (.inr (.inr "afrom".toList), [], ()), [' '], '\'', ['x'], '\''), [])
    importPattern.Reads (cs.drop 7) way ∧
    (∀ way', importPattern.Reads (cs.drop 7) way' → way' = way) ∧
    importsBy (.leftmostFirst importPattern) "importafromfrom 'x'" =
      importsBy (.lazy importPattern) "importafromfrom 'x'" := by
  intro cs way
  obtain ⟨hunique, -, hsame⟩ := importPattern_unambiguous
  have hname : IsName "afrom".toList := isName_of_isAlphanum (by decide) (by decide)
  have hnone : (run 0 isBlank).Valid ([] : List Char) := ⟨Nat.le_refl 0, List.forall_mem_nil _⟩
  have hblank : (run 1 isBlank).Valid [' '] :=
    ⟨Nat.le_refl 1, List.forall_mem_singleton.2 (by decide)⟩
  have hquote : isQuote '\'' = true := by decide
  have hpath : (run 1 (!isQuote ·)).Valid ['x'] :=
    ⟨Nat.le_refl 1, List.forall_mem_singleton.2 (by decide)⟩
  have hvalid : importPattern.Valid way.1 :=
    ⟨trivial, hnone, ⟨valid_run_of_ne_nil hname.1 hname.2, hnone, trivial⟩, hblank, hquote, hpath,
      hquote⟩
  have hreads : importPattern.Reads (cs.drop 7) way := ⟨hvalid, by decide⟩
  refine ⟨hreads, ?_, (hsame _).2⟩
  intro way' h'
  exact hunique cs 7 way' way h' hreads

end ModuleGraph
