import ModuleGraph.Proofs.Text.Run

/-!
# Blanks cut off both ends

`trim` is known by what it leaves. A text that neither begins nor ends with a blank is what is left
of it with any blanks around it (`trim_append_of_stops`), and every text is such a text with blanks
around it (`exists_eq_append_trim`).
-/

namespace ModuleGraph.Text

variable {before cs after : List Char}

theorem stops_nil (p : Char → Bool) : Stops p [] :=
  fun c hc => absurd hc (Option.not_mem_none c)

theorem Stops.of_isPrefix {p : Char → Bool} {front : List Char} (h : Stops p cs)
    (hfront : front <+: cs) : Stops p front := by
  cases front with
  | nil => exact stops_nil p
  | cons c front =>
      obtain ⟨rest, rfl⟩ := hfront
      exact stops_cons.2 (stops_cons.1 h)

/-- No more is cut off than the blanks around a text that has none at its ends. -/
theorem trim_append_of_stops (hbefore : ∀ c ∈ before, isBlank c = true)
    (hafter : ∀ c ∈ after, isBlank c = true) (hfirst : Stops isBlank cs)
    (hlast : Stops isBlank cs.reverse) : trim (before ++ (cs ++ after)) = cs := by
  have hend : trimEnd (cs ++ after) = cs := by
    rw [trimEnd, List.reverse_append,
      dropWhile_append_of_stops (fun c hc => hafter c (List.mem_reverse.1 hc)) hlast,
      List.reverse_reverse]
  cases cs with
  | nil =>
      -- all is blank, and nothing is left for the other end
      have hall : ∀ c ∈ before ++ ([] ++ after), isBlank c = true := by
        intro c hc
        rcases List.mem_append.1 hc with hc | hc
        · exact hbefore c hc
        · exact hafter c hc
      have hnone := dropWhile_append_of_stops hall (stops_nil isBlank)
      rw [List.append_nil] at hnone
      rw [trim, trimStart, hnone]
      rfl
  | cons c cs =>
      have hstart : Stops isBlank (c :: cs ++ after) := stops_cons.2 (stops_cons.1 hfirst)
      rw [trim, trimStart, dropWhile_append_of_stops hbefore hstart, hend]

theorem trim_eq_self (hfirst : Stops isBlank cs) (hlast : Stops isBlank cs.reverse) :
    trim cs = cs := by
  have htrim := trim_append_of_stops (List.forall_mem_nil _) (List.forall_mem_nil _) hfirst hlast
  rwa [List.nil_append, List.append_nil] at htrim

theorem trimEnd_isPrefix (cs : List Char) : trimEnd cs <+: cs := by
  have hsuffix : cs.reverse.dropWhile isBlank <:+ cs.reverse := List.dropWhile_suffix _
  rw [trimEnd, ← List.reverse_reverse cs]
  exact List.reverse_prefix.2 (by simpa using hsuffix)

theorem stops_trim (cs : List Char) : Stops isBlank (trim cs) :=
  (stops_dropWhile isBlank cs).of_isPrefix (trimEnd_isPrefix _)

theorem stops_reverse_trim (cs : List Char) : Stops isBlank (trim cs).reverse := by
  rw [trim, trimEnd, List.reverse_reverse]
  exact stops_dropWhile isBlank _

/-- What is cut off is blank. -/
theorem exists_eq_append_trim (cs : List Char) : ∃ before after,
    (∀ c ∈ before, isBlank c = true) ∧ (∀ c ∈ after, isBlank c = true) ∧
      cs = before ++ (trim cs ++ after) := by
  have hrun : ∀ cs : List Char, ∀ c ∈ cs.takeWhile isBlank, isBlank c = true := fun _ c hc =>
    List.all_eq_true.1 List.all_takeWhile c hc
  have hend : trimStart cs =
      trim cs ++ ((trimStart cs).reverse.takeWhile isBlank).reverse := by
    rw [trim, trimEnd, ← List.reverse_append, List.takeWhile_append_dropWhile, List.reverse_reverse]
  refine ⟨cs.takeWhile isBlank, ((trimStart cs).reverse.takeWhile isBlank).reverse, hrun cs, ?_, ?_⟩
  · intro c hc
    exact hrun (trimStart cs).reverse c (List.mem_reverse.1 hc)
  · rw [← hend, trimStart, List.takeWhile_append_dropWhile]

theorem trim_eq_nil_iff : trim cs = [] ↔ ∀ c ∈ cs, isBlank c = true := by
  constructor
  · intro hnil
    obtain ⟨before, after, hbefore, hafter, hcs⟩ := exists_eq_append_trim cs
    rw [hnil, List.nil_append] at hcs
    intro c hc
    rw [hcs] at hc
    rcases List.mem_append.1 hc with hc | hc
    · exact hbefore c hc
    · exact hafter c hc
  · intro hblank
    have htrim := trim_append_of_stops hblank (List.forall_mem_nil _) (stops_nil isBlank)
      (stops_nil isBlank)
    rwa [List.append_nil, List.append_nil] at htrim

/-- What begins with no blank begins as before. -/
theorem head?_trim {c : Char} (h : isBlank c = false) (cs : List Char) :
    (trim (c :: cs)).head? = some c := by
  have hstart : trimStart (c :: cs) = c :: cs :=
    List.dropWhile_cons_of_neg (by rw [h]; exact Bool.false_ne_true)
  have hfront : trim (c :: cs) <+: c :: cs := by
    have hend := trimEnd_isPrefix (trimStart (c :: cs))
    rwa [← trim, hstart] at hend
  cases htrim : trim (c :: cs) with
  | nil =>
      rw [trim_eq_nil_iff.1 htrim c List.mem_cons_self] at h
      cases h
  | cons d ds =>
      rw [htrim] at hfront
      rw [(List.cons_prefix_cons.1 hfront).1, List.head?_cons]

end ModuleGraph.Text
