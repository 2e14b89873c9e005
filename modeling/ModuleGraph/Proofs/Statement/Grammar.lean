import ModuleGraph.Proofs.Text.Run
import ModuleGraph.Statement

/-!
# The grammar of import statements, and the reader that follows it

`Statement.Written s cs` says that the characters `cs` are a spelling of the statement `s`:

    `import`  blank*  clause  blank*  `from`  blank+  quote  path  quote

where the clause is `{ … }` around one or more characters other than `}`, or `*` with or without
`as` and a name behind blanks, or a name; the path is one or more characters that are no quotes.
Nothing in the relation says how long a run of blanks or a name is to be taken to be. In
`importafrom 'x'` the name is `a`, in `import fromfrom 'x'` it is `from`, and neither is what one
reads off by taking the longest word.

What is proved is `read?_eq_some_iff`: the reader, which never comes back on a choice, reads
exactly the spellings at the front of a text. Its two halves are stated for each part. The second
half is where the choices are accounted for, and it needs to know what follows the part: behind
`from` there are blanks and a quote (`PathAhead`), so that no other `from` can be meant.

That the front of a text is a spelling in one way at most is a consequence, `written_unique`.
-/

namespace ModuleGraph

open Text

/-- Nothing but blanks. -/
def Blanks (cs : List Char) : Prop :=
  ∀ c ∈ cs, isBlank c = true

/-- One word character or more. -/
def IsName (cs : List Char) : Prop :=
  cs ≠ [] ∧ ∀ c ∈ cs, isWord c = true

/-- The spellings of a clause. -/
inductive Clause.Written : Clause → List Char → Prop
  | listed {body : List Char} : body ≠ [] → (∀ c ∈ body, c ≠ '}') →
      Written (.listed body) ('{' :: (body ++ ['}']))
  | everything : Written (.everything none) ['*']
  | renamed {b₁ b₂ name : List Char} : Blanks b₁ → b₁ ≠ [] → Blanks b₂ → b₂ ≠ [] → IsName name →
      Written (.everything (some name)) ('*' :: (b₁ ++ (Statement.asWord ++ (b₂ ++ name))))
  | default {name : List Char} : IsName name → Written (.default name) name

namespace Statement

/-- The spellings of a path between quotes. The two quotes need not be the same. -/
inductive Quoted : List Char → List Char → Prop
  | mk {path : List Char} {q₁ q₂ : Char} : isQuote q₁ = true → path ≠ [] →
      (∀ c ∈ path, isQuote c = false) → isQuote q₂ = true → Quoted path (q₁ :: (path ++ [q₂]))

/-- The spellings of a statement. -/
inductive Written : Statement → List Char → Prop
  | mk {clause : Clause} {path part quoted b₁ b₂ b₃ : List Char} :
      Blanks b₁ → clause.Written part → Blanks b₂ → Blanks b₃ → b₃ ≠ [] → Quoted path quoted →
      Written ⟨clause, path⟩
        (importWord ++ (b₁ ++ (part ++ (b₂ ++ (fromWord ++ (b₃ ++ quoted))))))

/-! ## How the parts begin -/

theorem isBlank_f : isBlank 'f' = false := by decide

theorem stops_fromWord (rest : List Char) : Stops isBlank (fromWord ++ rest) :=
  stops_cons.2 isBlank_f

theorem stops_asWord (rest : List Char) : Stops isBlank (asWord ++ rest) :=
  stops_cons.2 (by decide)

theorem eq_quote {c : Char} (h : isQuote c = true) : c = '\'' ∨ c = '"' := by
  simpa [isQuote] using h

theorem isBlank_eq_false_of_isQuote {c : Char} (h : isQuote c = true) : isBlank c = false := by
  rcases eq_quote h with rfl | rfl <;> decide

theorem stops_isWord_of_blanks {b rest : List Char} (hb : Blanks b) (hne : b ≠ []) :
    Stops isWord (b ++ rest) := by
  obtain ⟨c, b, rfl⟩ := List.exists_cons_of_ne_nil hne
  exact stops_cons.2 (isWord_eq_false_of_isBlank (hb c List.mem_cons_self))

theorem stops_isBlank_of_isName {name rest : List Char} (hn : IsName name) :
    Stops isBlank (name ++ rest) := by
  obtain ⟨c, name, rfl⟩ := List.exists_cons_of_ne_nil hn.1
  exact stops_cons.2 (isBlank_eq_false_of_isWord (hn.2 c List.mem_cons_self))

theorem stops_isBlank_of_clause {clause : Clause} {part rest : List Char}
    (h : clause.Written part) : Stops isBlank (part ++ rest) := by
  cases h with
  | listed => exact stops_cons.2 (by decide)
  | everything => exact stops_cons.2 (by decide)
  | renamed => exact stops_cons.2 (by decide)
  | default hn => exact stops_isBlank_of_isName hn

theorem isName_of_isAlphanum {cs : List Char} (hne : cs ≠ [])
    (h : cs.all Char.isAlphanum = true) : IsName cs := by
  refine ⟨hne, ?_⟩
  intro c hc
  exact isWord_of_isAlphanum (List.all_eq_true.1 h c hc)

theorem isName_importWord : IsName importWord :=
  isName_of_isAlphanum (List.cons_ne_nil _ _) (by decide)

theorem isName_fromWord : IsName fromWord :=
  isName_of_isAlphanum (List.cons_ne_nil _ _) (by decide)

theorem isName_asWord : IsName asWord :=
  isName_of_isAlphanum (List.cons_ne_nil _ _) (by decide)

/-- A name goes on into the word `from` that follows it without a blank. -/
theorem isName_append {name word : List Char} (hn : IsName name) (hw : IsName word) :
    IsName (name ++ word) := by
  refine ⟨List.append_ne_nil_of_left_ne_nil hn.1 word, ?_⟩
  intro c hc
  rcases List.mem_append.1 hc with h | h
  · exact hn.2 c h
  · exact hw.2 c h

theorem trimStart_append {b rest : List Char} (hb : Blanks b) (hr : Stops isBlank rest) :
    trimStart (b ++ rest) = rest :=
  dropWhile_append_of_stops hb hr

/-! ## Words and blanks -/

theorem blanks_nil : Blanks [] :=
  fun _ h => absurd h List.not_mem_nil

theorem blanks_space : Blanks [' '] :=
  List.forall_mem_singleton.2 (by decide)

theorem blanks_newline : Blanks ['\n'] :=
  List.forall_mem_singleton.2 (by decide)

theorem afterBlanks?_append {b rest : List Char} (hb : Blanks b) (hne : b ≠ [])
    (hr : Stops isBlank rest) : afterBlanks? (b ++ rest) = some rest := by
  obtain ⟨c, b, rfl⟩ := List.exists_cons_of_ne_nil hne
  have hc : isBlank c = true := hb c List.mem_cons_self
  have hb' : Blanks b := fun d hd => hb d (List.mem_cons_of_mem c hd)
  simp only [List.cons_append, afterBlanks?, hc, if_true, trimStart_append hb' hr]

theorem afterBlanks?_eq_none {cs : List Char} (h : Stops isBlank cs) : afterBlanks? cs = none := by
  cases cs with
  | nil => rfl
  | cons c cs => simp [afterBlanks?, stops_cons.1 h]

/-- What `trimStart` takes off is blank. -/
theorem eq_append_trimStart (cs : List Char) : ∃ b, Blanks b ∧ cs = b ++ trimStart cs := by
  refine ⟨cs.takeWhile isBlank, ?_, List.takeWhile_append_dropWhile.symm⟩
  intro c hc
  exact List.all_eq_true.1 List.all_takeWhile c hc

theorem eq_append_of_afterBlanks? {cs rest : List Char} (h : afterBlanks? cs = some rest) :
    ∃ b, Blanks b ∧ b ≠ [] ∧ cs = b ++ rest := by
  cases cs with
  | nil => cases h
  | cons c cs =>
      simp only [afterBlanks?] at h
      split at h
      · next hc =>
        cases h
        obtain ⟨b, hb, hcs⟩ := eq_append_trimStart cs
        refine ⟨c :: b, ?_, List.cons_ne_nil _ _, by rw [List.cons_append, ← hcs]⟩
        intro d hd
        rcases List.mem_cons.1 hd with rfl | hd
        · exact hc
        · exact hb d hd
      · cases h

/-- No word is read where another character stands. -/
theorem after?_eq_none {w c : Char} {word cs : List Char} (h : w ≠ c) :
    after? (w :: word) (c :: cs) = none := by
  simp [after?, h]

/-! ## What is read is a spelling -/

theorem quoted_of_quoted? {cs path rest : List Char} (h : quoted? cs = some (path, rest)) :
    ∃ front, Quoted path front ∧ cs = front ++ rest := by
  cases cs with
  | nil => cases h
  | cons q cs =>
      simp only [quoted?] at h
      split at h
      · next hq =>
        split at h
        · cases h
        · next q₂ rest' hd =>
          split at h
          · cases h
          · next hne =>
            cases h
            have hpath : ∀ c ∈ cs.takeWhile (!isQuote ·), isQuote c = false := by
              intro c hc
              simpa using List.all_eq_true.1 List.all_takeWhile c hc
            have hq₂ : isQuote q₂ = true := by
              have := List.head?_dropWhile_not (!isQuote ·) cs
              rw [hd] at this
              simpa using this
            refine ⟨_, .mk hq (by simpa using hne) hpath hq₂, ?_⟩
            rw [List.cons_append, List.append_assoc, List.singleton_append, ← hd,
              List.takeWhile_append_dropWhile]
      · cases h

theorem isName_of_nameThenFrom? {cs name rest : List Char}
    (h : nameThenFrom? cs = some (name, rest)) :
    IsName name ∧ ∃ b, Blanks b ∧ cs = name ++ (b ++ (fromWord ++ rest)) := by
  have hword : ∀ c ∈ cs.takeWhile isWord, isWord c = true := fun c hc =>
    List.all_eq_true.1 List.all_takeWhile c hc
  have hcs : cs = cs.takeWhile isWord ++ cs.dropWhile isWord :=
    List.takeWhile_append_dropWhile.symm
  simp only [nameThenFrom?] at h
  split at h
  · cases h
  next hne =>
  split at h
  · next after hf =>
    -- the name is the whole word, and `from` stands behind blanks
    cases h
    obtain ⟨mid, hm, hr⟩ := Option.bind_eq_some_iff.1 hf
    obtain ⟨b, hb, -, hd⟩ := eq_append_of_afterBlanks? hm
    refine ⟨⟨by simpa using hne, hword⟩, b, hb, ?_⟩
    rw [← eq_append_of_after? hr, ← hd]
    exact hcs
  split at h
  · next c name' ht =>
    -- `from` is the end of the word, and the name is what stands before it
    cases h
    have hw : cs.takeWhile isWord = (c :: name') ++ fromWord := TextPath.dropTail?_eq_some_iff.1 ht
    refine ⟨⟨List.cons_ne_nil _ _, ?_⟩, [], ?_, ?_⟩
    · intro d hd
      exact hword d (hw ▸ List.mem_append_left _ hd)
    · intro d hd
      cases hd
    · rw [List.nil_append, ← List.append_assoc, ← hw]
      exact hcs
  · cases h

theorem written_of_clauseThenFrom? {cs rest : List Char} {clause : Clause}
    (h : clauseThenFrom? cs = some (clause, rest)) :
    ∃ part b, clause.Written part ∧ Blanks b ∧ cs = part ++ (b ++ (fromWord ++ rest)) := by
  unfold clauseThenFrom? at h
  split at h
  · next cs =>
    simp only at h
    split at h
    · cases h
    next hne =>
    split at h
    · cases h
    · next close tail hd =>
      obtain ⟨_, ha, he⟩ := Option.map_eq_some_iff.1 h
      cases he
      obtain ⟨b, hb, ht⟩ := eq_append_trimStart tail
      have hbody : ∀ c ∈ cs.takeWhile (· != '}'), c ≠ '}' := by
        intro c hc
        simpa using List.all_eq_true.1 List.all_takeWhile c hc
      have hclose : close = '}' := by
        have := List.head?_dropWhile_not (· != '}') cs
        rw [hd] at this
        simpa using this
      subst hclose
      refine ⟨_, b, .listed (by simpa using hne) hbody, hb, ?_⟩
      rw [← eq_append_of_after? ha, ← ht, List.cons_append, List.append_assoc,
        List.singleton_append, ← hd, List.takeWhile_append_dropWhile]
  · next cs =>
    split at h
    · next tail hr =>
      obtain ⟨⟨name, _⟩, hn, he⟩ := Option.map_eq_some_iff.1 h
      cases he
      obtain ⟨u, h₁, h₂⟩ := Option.bind_eq_some_iff.1 hr
      obtain ⟨v, h₃, h₄⟩ := Option.bind_eq_some_iff.1 h₁
      obtain ⟨b₁, hb₁, hne₁, rfl⟩ := eq_append_of_afterBlanks? h₃
      obtain ⟨b₂, hb₂, hne₂, rfl⟩ := eq_append_of_afterBlanks? h₂
      obtain ⟨hname, b, hb, rfl⟩ := isName_of_nameThenFrom? hn
      refine ⟨_, b, .renamed hb₁ hne₁ hb₂ hne₂ hname, hb, ?_⟩
      rw [eq_append_of_after? h₄]
      simp only [List.cons_append, List.append_assoc]
    · obtain ⟨_, ha, he⟩ := Option.map_eq_some_iff.1 h
      cases he
      obtain ⟨b, hb, ht⟩ := eq_append_trimStart cs
      refine ⟨_, b, .everything, hb, ?_⟩
      rw [← eq_append_of_after? ha, ← ht, List.singleton_append]
  · obtain ⟨⟨name, _⟩, hn, he⟩ := Option.map_eq_some_iff.1 h
    cases he
    obtain ⟨hname, b, hb, hcs⟩ := isName_of_nameThenFrom? hn
    exact ⟨name, b, .default hname, hb, hcs⟩

theorem written_of_read? {cs rest : List Char} {s : Statement} (h : read? cs = some (s, rest)) :
    ∃ front, s.Written front ∧ cs = front ++ rest := by
  simp only [read?, Option.bind_eq_bind, Option.bind_eq_some_iff, Prod.exists, Option.pure_def,
    Option.some.injEq, Prod.mk.injEq] at h
  obtain ⟨c₁, h₁, clause, c₂, h₂, c₃, h₃, path, c₄, h₄, rfl, rfl⟩ := h
  obtain ⟨b₁, hb₁, hc₁⟩ := eq_append_trimStart c₁
  obtain ⟨part, b₂, hpart, hb₂, hc₂⟩ := written_of_clauseThenFrom? h₂
  obtain ⟨b₃, hb₃, hne₃, rfl⟩ := eq_append_of_afterBlanks? h₃
  obtain ⟨quoted, hquoted, rfl⟩ := quoted_of_quoted? h₄
  refine ⟨_, .mk hb₁ hpart hb₂ hb₃ hne₃ hquoted, ?_⟩
  rw [eq_append_of_after? h₁, hc₁, hc₂]
  simp only [List.append_assoc]

/-! ## Every spelling is read

What stands behind `from` decides between the two places where it may be looked for, the end of
the word and the other side of the blanks. -/

/-- Blanks and then a quote. -/
def PathAhead (cs : List Char) : Prop :=
  ∃ b q rest, Blanks b ∧ b ≠ [] ∧ isQuote q = true ∧ cs = b ++ q :: rest

theorem pathAhead_of_quoted {b path quoted rest : List Char} (hb : Blanks b) (hne : b ≠ [])
    (hq : Quoted path quoted) : PathAhead (b ++ (quoted ++ rest)) := by
  cases hq with
  | mk hq₁ _ _ _ => exact ⟨b, _, _, hb, hne, hq₁, rfl⟩

/-- The word `from` does not stand where the path does. -/
theorem from_not_ahead {cs : List Char} (h : PathAhead cs) :
    (afterBlanks? cs).bind (after? fromWord) = none := by
  obtain ⟨b, q, rest, hb, hne, hq, rfl⟩ := h
  rw [afterBlanks?_append hb hne (stops_cons.2 (isBlank_eq_false_of_isQuote hq)), Option.bind_some]
  rcases eq_quote hq with rfl | rfl
  · exact after?_eq_none (by decide)
  · exact after?_eq_none (by decide)

theorem quoted?_append {path quoted : List Char} (h : Quoted path quoted) (rest : List Char) :
    quoted? (quoted ++ rest) = some (path, rest) := by
  cases h with
  | @mk q₁ q₂ hq₁ hne hpath hq₂ =>
      have hp : ∀ c ∈ path, (!isQuote c) = true := by
        intro c hc
        simp [hpath c hc]
      have hstop : Stops (!isQuote ·) (q₂ :: rest) := stops_cons.2 (by simp [hq₂])
      simp only [List.cons_append, List.append_assoc, List.nil_append, quoted?, hq₁, if_true,
        takeWhile_append_of_stops hp hstop, dropWhile_append_of_stops hp hstop]
      rw [if_neg (by simpa using hne)]

theorem nameThenFrom?_append {name b rest : List Char} (hn : IsName name) (hb : Blanks b)
    (hr : PathAhead rest) :
    nameThenFrom? (name ++ (b ++ (fromWord ++ rest))) = some (name, rest) := by
  by_cases hne : b = []
  · -- the word runs on through `from`, and no second `from` follows it
    subst hne
    have hstop : Stops isWord rest := by
      obtain ⟨b, q, tail, hb, hne, _, rfl⟩ := hr
      exact stops_isWord_of_blanks hb hne
    have hword : IsName (name ++ fromWord) := isName_append hn isName_fromWord
    obtain ⟨c, name, rfl⟩ := List.exists_cons_of_ne_nil hn.1
    have ht : TextPath.dropTail? fromWord ((c :: name) ++ fromWord) = some (c :: name) :=
      TextPath.dropTail?_eq_some_iff.2 rfl
    rw [List.nil_append, ← List.append_assoc]
    simp only [nameThenFrom?, takeWhile_append_of_stops hword.2 hstop,
      dropWhile_append_of_stops hword.2 hstop, from_not_ahead hr, ht]
    rfl
  · -- the word ends where the name does, and `from` stands behind the blanks
    have hstop : Stops isWord (b ++ (fromWord ++ rest)) := stops_isWord_of_blanks hb hne
    have hafter : (afterBlanks? (b ++ (fromWord ++ rest))).bind (after? fromWord) = some rest := by
      rw [afterBlanks?_append hb hne (stops_fromWord rest), Option.bind_some, after?_append]
    simp only [nameThenFrom?, takeWhile_append_of_stops hn.2 hstop,
      dropWhile_append_of_stops hn.2 hstop, hafter]
    rw [if_neg (by simpa using hn.1)]

/-- Behind a bare `*` no other name is announced: `from` follows, and not `as`. -/
theorem as_not_ahead {b rest : List Char} (hb : Blanks b) :
    ((afterBlanks? (b ++ (fromWord ++ rest))).bind (after? asWord)).bind afterBlanks? = none := by
  by_cases hne : b = []
  · subst hne
    rw [List.nil_append, afterBlanks?_eq_none (stops_fromWord rest)]
    rfl
  · rw [afterBlanks?_append hb hne (stops_fromWord rest)]
    rfl

theorem clauseThenFrom?_append {clause : Clause} {part b rest : List Char}
    (hc : clause.Written part) (hb : Blanks b) (hr : PathAhead rest) :
    clauseThenFrom? (part ++ (b ++ (fromWord ++ rest))) = some (clause, rest) := by
  have hfrom : after? fromWord (trimStart (b ++ (fromWord ++ rest))) = some rest := by
    rw [trimStart_append hb (stops_fromWord rest), after?_append]
  cases hc with
  | @listed body hne hbody =>
      have hin : ∀ c ∈ body, (c != '}') = true := by
        intro c hc
        simpa using hbody c hc
      have hstop : Stops (· != '}') ('}' :: (b ++ (fromWord ++ rest))) :=
        stops_cons.2 (by decide)
      simp only [List.cons_append, List.append_assoc, List.nil_append, clauseThenFrom?,
        takeWhile_append_of_stops hin hstop, dropWhile_append_of_stops hin hstop, hfrom]
      rw [if_neg (by simpa using hne)]
      rfl
  | everything =>
      simp only [List.singleton_append, clauseThenFrom?, as_not_ahead hb, hfrom]
      rfl
  | @renamed b₁ b₂ name hb₁ hne₁ hb₂ hne₂ hname =>
      have hname' := nameThenFrom?_append hname hb hr
      have has : ((afterBlanks? (b₁ ++ (asWord ++ (b₂ ++ (name ++ (b ++ (fromWord ++ rest))))))).bind
          (after? asWord)).bind afterBlanks? = some (name ++ (b ++ (fromWord ++ rest))) := by
        rw [afterBlanks?_append hb₁ hne₁ (stops_asWord _), Option.bind_some, after?_append,
          Option.bind_some, afterBlanks?_append hb₂ hne₂ (stops_isBlank_of_isName hname)]
      simp only [List.cons_append, List.append_assoc, clauseThenFrom?, has, hname']
      rfl
  | default hname =>
      have hname' := nameThenFrom?_append hname hb hr
      obtain ⟨c, name, rfl⟩ := List.exists_cons_of_ne_nil hname.1
      have hc : isWord c = true := hname.2 c List.mem_cons_self
      rw [List.cons_append] at hname' ⊢
      unfold clauseThenFrom?
      split
      · next heq =>
        cases heq
        exact absurd hc (by decide)
      · next heq =>
        cases heq
        exact absurd hc (by decide)
      · rw [hname']
        rfl

theorem read?_append {s : Statement} {front : List Char} (h : s.Written front) (rest : List Char) :
    read? (front ++ rest) = some (s, rest) := by
  cases h with
  | @mk clause path part quoted b₁ b₂ b₃ hb₁ hpart hb₂ hb₃ hne₃ hquoted =>
      have hahead : PathAhead (b₃ ++ (quoted ++ rest)) := pathAhead_of_quoted hb₃ hne₃ hquoted
      have hstop : Stops isBlank (quoted ++ rest) := by
        cases hquoted with
        | mk hq₁ _ _ _ => exact stops_cons.2 (isBlank_eq_false_of_isQuote hq₁)
      simp only [List.append_assoc, read?, Option.bind_eq_bind, Option.bind_some,
        after?_append, trimStart_append hb₁ (stops_isBlank_of_clause hpart),
        clauseThenFrom?_append hpart hb₂ hahead, afterBlanks?_append hb₃ hne₃ hstop,
        quoted?_append hquoted]
      rfl

/-! ## The reader and the grammar -/

/-- The reader reads exactly what is spelled at the front of a text. -/
theorem read?_eq_some_iff {cs rest : List Char} {s : Statement} :
    read? cs = some (s, rest) ↔ ∃ front, s.Written front ∧ cs = front ++ rest := by
  constructor
  · exact written_of_read?
  · rintro ⟨front, h, rfl⟩
    exact read?_append h rest

/-- Of the texts that begin at one place, at most one is the spelling of a statement, and of one
statement only. -/
theorem written_unique {s s' : Statement} {front front' cs : List Char} (h : s.Written front)
    (h' : s'.Written front') (hp : front <+: cs) (hp' : front' <+: cs) :
    s = s' ∧ front = front' := by
  obtain ⟨rest, hr⟩ := hp
  obtain ⟨rest', hr'⟩ := hp'
  have heq : some (s, rest) = some (s', rest') := by
    rw [← read?_append h rest, ← read?_append h' rest', hr, hr']
  cases heq
  exact ⟨rfl, List.append_cancel_right (hr.trans hr'.symm)⟩

theorem Written.ne_nil {s : Statement} {front : List Char} (h : s.Written front) : front ≠ [] := by
  cases h with
  | mk => exact List.cons_ne_nil _ _

end Statement

end ModuleGraph
