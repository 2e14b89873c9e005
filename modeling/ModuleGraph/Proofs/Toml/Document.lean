import ModuleGraph.Proofs.Toml.Values

/-!
# Documents of pairs

A document that has no tables is a list of lines, each a pair of a key and a value or without
either; blanks and comments stand where they may, and the last line may want its end (`Written`). A
byte order mark may stand in front of it (`Document`). What is proved is `read?_of_document`: such a
document is read as its pairs, in their order, if no two of them have one key.

The induction is on the lines. It carries what is entered by the lines before, since a line is
refused if its key is known by then.
-/

namespace ModuleGraph.Toml

open Text

/-! ## Keys and lines -/

/-- The spellings of a key: bare, in quotes, or in apostrophes. -/
inductive KeyWritten : String → List Char → Prop
  | bare {key : String} : key.toList ≠ [] → (∀ c ∈ key.toList, isBare c = true) →
      KeyWritten key key.toList
  | basic {key : String} {cs : List Char} : BasicWritten key.toList cs →
      KeyWritten key ('"' :: (cs ++ ['"']))
  | literal {key : String} : (∀ c ∈ key.toList, isPlain c = true ∧ c ≠ '\'') →
      KeyWritten key ('\'' :: (key.toList ++ ['\'']))

/-- A comment, or nothing. -/
inductive Comment : List Char → Prop
  | none : Comment []
  | words {words : List Char} : Plain words → Comment ('#' :: words)

/-- The first text is the end of a line, and the second what follows it. -/
inductive LineEnd : List Char → List Char → Prop
  | line {s c nl rest : List Char} : Spaces s → Comment c → Newline nl →
      LineEnd (s ++ (c ++ (nl ++ rest))) rest
  | last {s c : List Char} : Spaces s → Comment c → LineEnd (s ++ c) []

/-- The spellings of pairs, each on a line. -/
inductive Written : Entries → List Char → Prop
  | nil : Written [] []
  | blank {pairs : Entries} {cs rest : List Char} : LineEnd cs rest → Written pairs rest →
      Written pairs cs
  | pair {pairs : Entries} {key : String} {v : Toml} {s₁ k s₂ s₃ t cs rest : List Char} :
      Spaces s₁ → KeyWritten key k → Spaces s₂ → Spaces s₃ → ValueWritten v t → LineEnd cs rest →
      Written pairs rest →
      Written ((key, v) :: pairs) (s₁ ++ (k ++ (s₂ ++ '=' :: (s₃ ++ (t ++ cs)))))

/-- The text is a document of the pairs. -/
inductive Document : Entries → String → Prop
  | plain {pairs : Entries} {cs : List Char} : Written pairs cs →
      Document pairs (String.ofList cs)
  | marked {pairs : Entries} {cs : List Char} : Written pairs cs →
      Document pairs (String.ofList ('\uFEFF' :: cs))

variable {key : String} {v : Toml} {k s t cs rest : List Char} {pairs : Entries}

/-! ## Keys are read -/

/-- A key begins neither like a line without one, nor like a header, nor like a document. -/
theorem KeyWritten.exists_eq_cons (h : KeyWritten key k) : ∃ c tail, k = c :: tail ∧
    ∀ d ∈ [' ', '\t', '#', '\n', '\r', '[', '\uFEFF'], c ≠ d := by
  cases h with
  | bare hne hbare =>
      obtain ⟨c, tail, heq⟩ := List.exists_cons_of_ne_nil hne
      refine ⟨c, tail, heq, ?_⟩
      have hnot : ∀ d ∈ [' ', '\t', '#', '\n', '\r', '[', '\uFEFF'], isBare d = false := by
        simp [isBare]
      rintro d hd rfl
      cases (hnot c hd).symm.trans (hbare c (heq ▸ List.mem_cons_self))
  | basic _ => exact ⟨_, _, rfl, by simp⟩
  | literal _ => exact ⟨_, _, rfl, by simp⟩

theorem KeyWritten.stops_isSpace (h : KeyWritten key k) (rest : List Char) :
    Stops isSpace (k ++ rest) := by
  obtain ⟨c, tail, rfl, hc⟩ := h.exists_eq_cons
  refine stops_cons.2 ?_
  simp only [isSpace, Bool.or_eq_false_iff, beq_eq_false_iff_ne]
  exact ⟨hc ' ' (by simp), hc '\t' (by simp)⟩

theorem literal?_append (h : ∀ c ∈ s, isPlain c = true ∧ c ≠ '\'') (rest : List Char) :
    literal? (s ++ '\'' :: rest) = some (s, rest) := by
  induction s with
  | nil => rfl
  | cons c s ih =>
      obtain ⟨⟨hplain, hquote⟩, hs⟩ := List.forall_mem_cons.1 h
      rw [List.cons_append, literal?, if_pos hplain, ih hs]
      · rfl
      · exact hquote

theorem key?_append (h : KeyWritten key k) (hrest : Stops isBare rest) :
    key? (k ++ rest) = some (key, rest) := by
  have hdone : ∀ s : String, string?.done (some (s.toList, rest)) = some (s, rest) := by
    intro s
    rw [string?.done, Option.map_some]
    exact congrArg (fun s => some (s, rest)) String.ofList_toList
  cases h with
  | bare hne hbare =>
      have hquote : ∀ (c : Char) (tail : List Char), isBare c = false →
          key.toList ++ rest ≠ c :: tail := by
        intro c tail hc heq
        obtain ⟨d, ds, hkey⟩ := List.exists_cons_of_ne_nil hne
        rw [hkey] at heq hbare
        obtain ⟨rfl, -⟩ := List.cons.inj heq
        cases hc.symm.trans (hbare d List.mem_cons_self)
      rw [key?]
      · rw [takeWhile_append_of_stops hbare hrest, dropWhile_append_of_stops hbare hrest,
          String.ofList_toList]
        simp only [List.isEmpty_iff, if_neg hne]
      · exact fun tail heq => hquote '"' tail (by decide) heq
      · exact fun tail heq => hquote '\'' tail (by decide) heq
  | basic hcs =>
      rw [List.cons_append, List.append_assoc, List.singleton_append, key?, basic?_append hcs,
        hdone]
  | literal hplain =>
      rw [List.cons_append, List.append_assoc, List.singleton_append, key?,
        literal?_append hplain, hdone]

/-- A key before its value is no dotted key. -/
theorem dottedKey?_append (h : KeyWritten key k) (hs : Spaces s) (rest : List Char) :
    dottedKey? (k ++ (s ++ '=' :: rest)) = some (([], key), '=' :: rest) := by
  have hbare : Stops isBare (s ++ '=' :: rest) := by
    cases s with
    | nil => exact stops_cons.2 rfl
    | cons c s =>
        have hc := (List.forall_mem_cons.1 hs).1
        simp only [isSpace, Bool.or_eq_true, beq_iff_eq] at hc
        rcases hc with rfl | rfl <;> exact stops_cons.2 rfl
  have hkeys : keys? maxDepth (k ++ (s ++ '=' :: rest)) = some ([key], '=' :: rest) := by
    have hdepth : maxDepth = 78 + 1 := rfl
    have hstart : skipSpaces (k ++ (s ++ '=' :: rest)) = k ++ (s ++ '=' :: rest) :=
      skipSpaces_append (s := []) (fun _ h => absurd h List.not_mem_nil) (h.stops_isSpace _)
    have hequals : skipSpaces (s ++ '=' :: rest) = '=' :: rest :=
      skipSpaces_append hs (stops_cons.2 rfl)
    rw [hdepth, keys?, hstart, key?_append h hbare]
    simp only [Option.bind_eq_bind, Option.bind_some, hequals]
    rfl
  rw [dottedKey?, hkeys]
  rfl

/-! ## Ends of lines -/

theorem isPlain_of_isSpace {c : Char} (h : isSpace c = true) : isPlain c = true := by
  simp only [isSpace, Bool.or_eq_true, beq_iff_eq] at h
  rcases h with rfl | rfl <;> rfl

theorem Newline.stops_isPlain {nl : List Char} (h : Newline nl) (rest : List Char) :
    Stops isPlain (nl ++ rest) := by
  cases h with
  | lf => exact stops_cons.2 rfl
  | crlf => exact stops_cons.2 rfl

/-- Behind blanks and a comment stands the end of the line or of the text. -/
theorem lineEnd?_of_stops {c tail : List Char} (hs : Spaces s) (hc : Comment c)
    (htail : Stops isPlain tail) :
    lineEnd? (s ++ (c ++ tail)) = if tail.isEmpty then some [] else newline? tail := by
  cases hc with
  | none =>
      have hspaces : Stops isSpace tail := by
        intro c hc
        refine Bool.eq_false_iff.2 fun hspace => ?_
        cases (htail c hc).symm.trans (isPlain_of_isSpace hspace)
      rw [List.nil_append, lineEnd?, skipSpaces_append hs hspaces]
      cases tail with
      | nil => rfl
      | cons c tail =>
          have hhash : c ≠ '#' := by
            rintro rfl
            cases stops_cons.1 htail
          split
          next heq => exact absurd (List.cons.inj heq).1 hhash
          next => rfl
  | @words words hwords =>
      have hhash : Stops isSpace ('#' :: (words ++ tail)) := stops_cons.2 rfl
      rw [List.cons_append, lineEnd?, skipSpaces_append hs hhash]
      simp only [dropWhile_append_of_stops hwords htail]

theorem lineEnd?_append (h : LineEnd cs rest) : lineEnd? cs = some rest := by
  cases h with
  | @line s c nl rest hs hc hnl =>
      have hne : (nl ++ rest).isEmpty = false := by
        cases hnl with
        | lf => rfl
        | crlf => rfl
      rw [lineEnd?_of_stops hs hc (hnl.stops_isPlain rest), hne, if_neg Bool.false_ne_true,
        newline?_append hnl]
  | @last s c hs hc =>
      have hstops : Stops isPlain [] := fun _ h => by cases h
      have hread := lineEnd?_of_stops hs hc hstops
      rwa [List.append_nil] at hread

/-! ## Lines are read -/

/-- The end of a line may follow a value. -/
theorem LineEnd.afterValue (h : LineEnd cs rest) : AfterValue cs := by
  have hspaces : ∀ {s tail : List Char}, Spaces s → AfterValue tail → AfterValue (s ++ tail) := by
    intro s tail hs htail
    cases s with
    | nil => exact htail
    | cons c s =>
        intro d hd
        cases hd
        rw [isLayout, (List.forall_mem_cons.1 hs).1]
        rfl
  have hcomment : ∀ {c tail : List Char}, Comment c → AfterValue tail →
      AfterValue (c ++ tail) := by
    intro c tail hc htail
    cases hc with
    | none => exact htail
    | words _ =>
        intro d hd
        cases hd
        rfl
  cases h with
  | line hs hc hnl =>
      refine hspaces hs (hcomment hc ?_)
      intro d hd
      cases hnl <;> cases hd <;> rfl
  | @last s c hs hc =>
      refine hspaces hs ?_
      have hnil : AfterValue [] := fun _ h => by cases h
      have hend := hcomment hc hnil
      rwa [List.append_nil] at hend

theorem ValueWritten.stops_isSpace (h : ValueWritten v t) (rest : List Char) :
    Stops isSpace (t ++ rest) := by
  cases h with
  | strings _ _ => exact stops_cons.2 rfl
  | nat _ hn =>
      obtain ⟨c, tail, rfl, hc⟩ := hn.exists_eq_cons
      refine stops_cons.2 (Bool.eq_false_iff.2 fun hspace => ?_)
      simp only [isSpace, Bool.or_eq_true, beq_iff_eq] at hspace
      rcases hspace with rfl | rfl <;> exact absurd hc (by decide)
  | true => exact stops_cons.2 rfl
  | false => exact stops_cons.2 rfl

theorem lineEnd?_key (hs : Spaces s) (h : KeyWritten key k) (rest : List Char) :
    lineEnd? (s ++ (k ++ rest)) = none := by
  rw [lineEnd?, skipSpaces_append hs (h.stops_isSpace rest)]
  obtain ⟨c, tail, rfl, hc⟩ := h.exists_eq_cons
  have hhash := hc '#' (by simp)
  have hlf := hc '\n' (by simp)
  have hcr := hc '\r' (by simp)
  rw [List.cons_append]
  split
  · next heq => exact absurd (List.cons.inj heq).1 hhash
  · rw [List.isEmpty_cons, if_neg Bool.false_ne_true, newline?]
    · exact fun _ heq => hlf (List.cons.inj heq).1
    · exact fun _ heq => hcr (List.cons.inj heq).1

theorem statement?_pair {s₂ s₃ : List Char} (hk : KeyWritten key k) (hs₂ : Spaces s₂)
    (hs₃ : Spaces s₃) (ht : ValueWritten v t) (hrest : AfterValue cs) :
    statement? (k ++ (s₂ ++ '=' :: (s₃ ++ (t ++ cs)))) = some (.pair [] key v, cs) := by
  have hdepth : maxDepth = 78 + 1 := rfl
  have hkey := dottedKey?_append hk hs₂ (s₃ ++ (t ++ cs))
  have hvalue : value? (2 * (t ++ cs).length + 2) maxDepth (t ++ cs) = some (v, cs) := by
    rw [hdepth]
    refine value?_append ht hrest ?_ 78
    rw [List.length_append]
    omega
  have hopening : ∀ tail, k ++ (s₂ ++ '=' :: (s₃ ++ (t ++ cs))) ≠ '[' :: tail := by
    obtain ⟨c, rest, rfl, hc⟩ := hk.exists_eq_cons
    exact fun _ heq => hc '[' (by simp) (List.cons.inj heq).1
  rw [statement?, hkey]
  · simp only [Option.bind_eq_bind, Option.bind_some, past?, if_true,
      skipSpaces_append hs₃ (ht.stops_isSpace cs), hvalue]
    rfl
  · exact fun _ heq => hopening _ heq
  · exact fun _ heq => hopening _ heq

theorem line?_pair {s₁ s₂ s₃ : List Char} (hs₁ : Spaces s₁) (hk : KeyWritten key k)
    (hs₂ : Spaces s₂) (hs₃ : Spaces s₃) (ht : ValueWritten v t) (hend : LineEnd cs rest) :
    line? (s₁ ++ (k ++ (s₂ ++ '=' :: (s₃ ++ (t ++ cs))))) = some (.pair [] key v, rest) := by
  rw [line?, lineEnd?_key hs₁ hk, skipSpaces_append hs₁ (hk.stops_isSpace _)]
  simp only [statement?_pair hk hs₂ hs₃ ht hend.afterValue, Option.bind_eq_bind, Option.bind_some,
    lineEnd?_append hend]
  rfl

theorem line?_blank (h : LineEnd cs rest) : line? cs = some (.blank, rest) := by
  rw [line?, lineEnd?_append h]

/-- An end of a line takes at least one character, unless the text has ended. -/
theorem LineEnd.length_lt (h : LineEnd cs rest) (hne : cs ≠ []) : rest.length < cs.length := by
  cases h with
  | line _ _ hnl =>
      simp only [List.length_append]
      cases hnl <;> simp only [List.length_cons, List.length_nil] <;> omega
  | last => exact List.length_pos_iff.2 hne

theorem LineEnd.length_le (h : LineEnd cs rest) : rest.length ≤ cs.length := by
  cases h with
  | line =>
      simp only [List.length_append]
      omega
  | last => exact Nat.zero_le _

/-! ## Documents are read -/

/-- A pair is entered under a key that is not known yet. -/
theorem add_pair {before : Entries} (h : key ∉ before.map (·.1)) :
    Draft.add { entries := before } (.pair [] key v) =
      some { entries := before ++ [(key, v)] } := by
  have hfree : before.lookup key = none := by
    refine List.lookup_eq_none_iff.2 fun pair hpair => ?_
    rw [bne_iff_ne]
    rintro rfl
    exact h (List.mem_map_of_mem hpair)
  simp [Draft.add, modify, enterDotted, enter, hfree]

/-- The first line of a text, and the lines after it. -/
theorem lines?_cons {line : Line} {lines : List Line} {budget : Nat} (hne : cs ≠ [])
    (hline : line? cs = some (line, rest)) (hlines : lines? budget rest = some lines) :
    lines? (budget + 1) cs = some (line :: lines) := by
  rw [lines?, hline]
  · simp only [Option.bind_eq_bind, Option.bind_some, hlines]
    rfl
  · exact hne

/-- Lines of pairs are read, and entered one after the other after what is known before. -/
theorem lines?_of_written (h : Written pairs cs) {budget : Nat} (hbudget : cs.length ≤ budget) :
    ∃ lines, lines? budget cs = some lines ∧
      ∀ before : Entries, ((before ++ pairs).map (·.1)).Nodup →
        lines.foldlM Draft.add { entries := before } = some { entries := before ++ pairs } := by
  induction h generalizing budget with
  | nil =>
      refine ⟨[], by rw [lines?], fun before _ => ?_⟩
      rw [List.append_nil]
      rfl
  | @blank pairs cs rest hend _ ih =>
      by_cases hne : cs = []
      · have hrest : rest = [] := by
          have hlength := hend.length_le
          rw [hne] at hlength
          exact List.length_eq_zero_iff.1 (Nat.le_zero.1 hlength)
        rw [hrest] at ih
        rw [hne]
        exact ih (Nat.zero_le _)
      · have hlength := hend.length_lt hne
        obtain ⟨budget, rfl⟩ := Nat.exists_eq_add_of_le' (Nat.le_trans (Nat.succ_le_of_lt
          (Nat.zero_lt_of_lt hlength)) hbudget)
        obtain ⟨lines, hlines, hentered⟩ := @ih budget (by omega)
        exact ⟨.blank :: lines, lines?_cons hne (line?_blank hend) hlines, hentered⟩
  | @pair pairs key v s₁ k s₂ s₃ t cs rest hs₁ hk hs₂ hs₃ ht hend _ ih =>
      have hline := line?_pair hs₁ hk hs₂ hs₃ ht hend
      have hlength : rest.length < (s₁ ++ (k ++ (s₂ ++ '=' :: (s₃ ++ (t ++ cs))))).length := by
        have hle := hend.length_le
        simp only [List.length_append, List.length_cons]
        omega
      have hne : s₁ ++ (k ++ (s₂ ++ '=' :: (s₃ ++ (t ++ cs)))) ≠ [] :=
        List.ne_nil_of_length_pos (Nat.zero_lt_of_lt hlength)
      obtain ⟨budget, rfl⟩ := Nat.exists_eq_add_of_le' (Nat.le_trans (Nat.succ_le_of_lt
        (Nat.zero_lt_of_lt hlength)) hbudget)
      obtain ⟨lines, hlines, hentered⟩ := @ih budget (by omega)
      refine ⟨.pair [] key v :: lines, lines?_cons hne hline hlines, fun before hdiff => ?_⟩
      have hsplit : before ++ (key, v) :: pairs = before ++ [(key, v)] ++ pairs := by
        rw [List.append_assoc, List.singleton_append]
      have hnew : key ∉ before.map (·.1) := by
        rw [List.map_append, List.map_cons, List.nodup_append] at hdiff
        exact fun hmem => hdiff.2.2 key hmem key List.mem_cons_self rfl
      rw [hsplit] at hdiff ⊢
      rw [List.foldlM_cons, add_pair hnew]
      exact hentered _ hdiff

/-- A text of pairs does not begin like a document with a byte order mark. -/
theorem Written.head?_ne (h : Written pairs cs) : cs.head? ≠ some '\uFEFF' := by
  cases h with
  | nil => exact (nofun)
  | blank hend _ =>
      intro heq
      cases hend.afterValue _ heq
  | @pair _ _ _ s₁ _ _ _ _ _ _ hs₁ hk _ _ _ _ _ =>
      intro heq
      cases s₁ with
      | nil =>
          obtain ⟨c, tail, rfl, hc⟩ := hk.exists_eq_cons
          exact hc '\uFEFF' (by simp) (Option.some.inj heq)
      | cons c s₁ =>
          have hspace := (List.forall_mem_cons.1 hs₁).1
          rw [Option.some.inj heq] at hspace
          cases hspace

/-- A document of pairs is read as its pairs, if their keys are different. -/
theorem read?_of_document {text : String} (h : Document pairs text)
    (hdiff : (pairs.map (·.1)).Nodup) : read? text = some pairs := by
  have hread : ∀ {cs : List Char}, Written pairs cs → (do
      let lines ← lines? cs.length cs
      let draft ← lines.foldlM Draft.add {}
      return draft.entries) = some pairs := by
    intro cs hcs
    obtain ⟨lines, hlines, hentered⟩ := lines?_of_written hcs (Nat.le_refl _)
    rw [hlines, Option.bind_eq_bind, Option.bind_some, hentered [] hdiff]
    rfl
  cases h with
  | plain hcs =>
      rw [read?, String.toList_ofList]
      split
      · exact absurd rfl hcs.head?_ne
      · exact hread hcs
  | marked hcs =>
      rw [read?, String.toList_ofList]
      exact hread hcs

/-! ## Whatever settings are, there is a document of them -/

/-- Any text can be put between quotes: a control is given by its number. -/
theorem exists_basicWritten (s : List Char) : ∃ cs, BasicWritten s cs := by
  induction s with
  | nil => exact ⟨[], .nil⟩
  | cons c s ih =>
      obtain ⟨cs, hcs⟩ := ih
      by_cases hquote : c = '"'
      · exact ⟨_, .escaped (e := '"') (by rw [hquote]; rfl) hcs⟩
      by_cases hbackslash : c = '\\'
      · exact ⟨_, .escaped (e := '\\') (by rw [hbackslash]; rfl) hcs⟩
      by_cases hplain : isPlain c = true
      · exact ⟨_, .plain hplain hquote hbackslash hcs⟩
      · have hcontrol : c.toNat < 0x100 ∧ c.toNat < 0xD800 := by
          simp only [isPlain, Bool.or_eq_true, Bool.and_eq_true, decide_eq_true_eq, bne_iff_ne,
            not_or] at hplain
          omega
        have hc : codePoint? c.toNat = some c := by
          rw [codePoint?, if_pos (Or.inl hcontrol.2), Char.ofNat_toNat]
        exact ⟨_, .short rfl (Hexadecimal.value?_two hcontrol.1) hc hcs⟩

theorem exists_itemsWritten (items : List String) : ∃ cs, ItemsWritten items cs := by
  induction items with
  | nil => exact ⟨_, .nil⟩
  | cons s items ih =>
      obtain ⟨tail, htail⟩ := ih
      obtain ⟨cs, hcs⟩ := exists_basicWritten s.toList
      exact ⟨_, .cons hcs .nil .nil htail⟩

theorem more_of_digits {ds : List Char} (h : ∀ d ∈ ds, d.isDigit = true) :
    More Char.isDigit ds ds := by
  induction ds with
  | nil => exact .nil
  | cons d ds ih =>
      obtain ⟨hd, hds⟩ := List.forall_mem_cons.1 h
      exact .digit hd (ih hds)

theorem decimalWritten_write (n : Nat) : DecimalWritten n (Decimal.write n) := by
  by_cases hzero : n = 0
  · rw [hzero, Decimal.write_zero]
    exact .zero
  · have hhead := Decimal.head?_write hzero
    have hvalue := Decimal.value_write n
    have hdigits : ∀ d ∈ Decimal.write n, d.isDigit = true :=
      fun _ => Decimal.isDigit_of_mem_write
    obtain ⟨d, ds, hwrite⟩ := List.exists_cons_of_ne_nil (Decimal.write_ne_nil n)
    rw [hwrite] at hhead hvalue hdigits ⊢
    obtain ⟨hd, hds⟩ := List.forall_mem_cons.1 hdigits
    have hfirst : d ≠ '0' := fun heq => hhead (congrArg some heq)
    have hwritten := DecimalWritten.digits hd hfirst (more_of_digits hds)
    rwa [hvalue] at hwritten

theorem exists_document {pairs : Entries} (h : ∀ pair ∈ pairs, ∃ t, ValueWritten pair.2 t) :
    ∃ text, Document pairs text := by
  have hspaces : Spaces [] := fun _ h => absurd h List.not_mem_nil
  have hwritten : ∃ cs, Written pairs cs := by
    induction pairs with
    | nil => exact ⟨[], .nil⟩
    | cons pair pairs ih =>
        obtain ⟨⟨t, ht⟩, hrest⟩ := List.forall_mem_cons.1 h
        obtain ⟨rest, hwritten⟩ := ih hrest
        obtain ⟨k, hk⟩ := exists_basicWritten pair.1.toList
        have hend : LineEnd ('\n' :: rest) rest :=
          @LineEnd.line [] [] ['\n'] rest hspaces .none .lf
        exact ⟨_, .pair hspaces (.basic hk) hspaces hspaces ht hend hwritten⟩
  obtain ⟨cs, hcs⟩ := hwritten
  exact ⟨_, .plain hcs⟩

end ModuleGraph.Toml
