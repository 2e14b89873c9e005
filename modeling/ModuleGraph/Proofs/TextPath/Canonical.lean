import ModuleGraph.Proofs.TextPath.NormalForm

/-!
# The shape of normalized paths

`IsCanonical` says of a text, without a word on how it came about, that it is the path one would
write: `/` alone between segments, one at a time and none at the end; no `.`; and `..` only at the
front of a relative path. The root and the empty text are canonical.

A text has this shape if and only if it is the text of a normal form
(`isCanonical_iff_exists_text`). Of the two halves one is about the pieces of a text that is known
to be joined from segments; the other finds the segments in a text of which only the shape is known,
and the segments of a relative one have to be parted into steps up and names. Since normalizing a
path writes the text of a normal form, and keeps such a text as it is (`normalize_text`), the
canonical texts are the ones that normalizing gives and the ones that it keeps
(`normalize_eq_self_iff`).
-/

namespace ModuleGraph.TextPath

/-- The path is written in the shape that normalizing gives. -/
structure IsCanonical (path : List Char) : Prop where
  no_backslash : '\\' ∉ path
  /-- No segment between two others is empty. -/
  no_double_slash : ¬ ['/', '/'] <:+: path
  /-- A `/` at the end is the root. -/
  no_slash_at_end : path.getLast? = some '/' → path = ['/']
  no_here : here ∉ path.splitOn '/'
  no_up_of_absolute : isAbsolute path = true → up ∉ path.splitOn '/'
  /-- What stands before a `..` is a `..`. -/
  ups_first : isAbsolute path = false →
    (path.splitOn '/').Pairwise fun earlier later => later = up → earlier = up

theorem isAbsolute_unify_iff {path : List Char} :
    isAbsolute (unify path) = true ↔ path.head? = some '/' ∨ path.head? = some '\\' := by
  cases path with
  | nil => simp [unify, isAbsolute]
  | cons c path => by_cases h : c = '\\' <;> simp [unify, isAbsolute, h]

namespace NormalForm

/-! ## The text of a normal form is canonical -/

/-- The segments joined, without the `/` of an absolute path. -/
def body (form : NormalForm) : List Char :=
  List.intercalate ['/'] form.kept.reverse

theorem text_eq (form : NormalForm) :
    form.text = if form.absolute then '/' :: form.body else form.body := rfl

theorem splitOn_body {form : NormalForm} (hne : form.kept ≠ []) :
    form.body.splitOn '/' = form.kept.reverse :=
  List.splitOn_intercalate '/' (fun _ hmem => (mem_kept hmem).1.2) (List.reverse_ne_nil_iff.2 hne)

/-- Joined segments are not empty, do not begin or end with a slash, and hold no two in a row. -/
theorem slashes_body {form : NormalForm} (hne : form.kept ≠ []) :
    form.body ≠ [] ∧ form.body.head? ≠ some '/' ∧ form.body.getLast? ≠ some '/' ∧
      ¬ ['/', '/'] <:+: form.body := by
  rw [← not_or, ← not_or, ← not_or, ← nil_mem_splitOn_iff, splitOn_body hne]
  intro hmem
  exact (mem_kept hmem).1.1 rfl

theorem no_double_slash_text (form : NormalForm) : ¬ ['/', '/'] <:+: form.text := by
  by_cases hne : form.kept = []
  · rw [text, hne]
    split <;> decide
  obtain ⟨-, hhead, -, hin⟩ := slashes_body hne
  rw [text_eq]
  split
  · rw [List.infix_cons_iff, List.cons_prefix_cons]
    rintro (⟨-, hprefix⟩ | hinfix)
    · obtain ⟨rest, hrest⟩ := hprefix
      exact hhead (List.head?_eq_some_iff.2 ⟨rest, hrest.symm⟩)
    · exact hin hinfix
  · exact hin

theorem no_slash_at_end_text {form : NormalForm} (h : form.text.getLast? = some '/') :
    form.text = ['/'] := by
  by_cases hne : form.kept = []
  · rw [text, hne] at h ⊢
    split at h
    · next habs => rw [if_pos habs]; rfl
    · cases h
  obtain ⟨hnil, -, hlast, -⟩ := slashes_body hne
  refine absurd ?_ hlast
  rw [text_eq] at h
  split at h
  · rwa [List.getLast?_cons_of_ne_nil hnil] at h
  · exact h

/-- A segment that is found in the text is one of the form. -/
theorem mem_kept_of_mem_splitOn {form : NormalForm} {segment : List Char} (hne : segment ≠ [])
    (h : segment ∈ form.text.splitOn '/') : segment ∈ form.kept := by
  have hmem : segment ∈ (form.text.splitOn '/').filter (· ≠ []) :=
    List.mem_filter.2 ⟨h, by simpa using hne⟩
  rw [filter_splitOn_text] at hmem
  exact List.mem_reverse.1 hmem

theorem here_not_mem_kept (form : NormalForm) : here ∉ form.kept := by
  intro hmem
  rcases List.mem_append.1 hmem with hname | hup
  · exact (form.isName here hname).ne_here rfl
  · exact absurd (List.eq_of_mem_replicate hup) (by decide)

theorem up_not_mem_kept_of_absolute {form : NormalForm} (habs : form.absolute = true) :
    up ∉ form.kept := by
  rw [kept, form.ups_eq_zero habs, List.replicate_zero, List.append_nil]
  intro hmem
  exact (form.isName up hmem).ne_up rfl

theorem ups_first_kept (form : NormalForm) :
    form.kept.reverse.Pairwise fun earlier later => later = up → earlier = up := by
  rw [kept, List.reverse_append, List.reverse_replicate, List.pairwise_append]
  refine ⟨List.pairwise_replicate.2 (Or.inr fun h => h), ?_, ?_⟩
  · refine List.pairwise_of_forall_mem_list ?_
    intro _ _ later hlater hup
    exact absurd hup (form.isName later (List.mem_reverse.1 hlater)).ne_up
  · intro earlier hearlier _ _ _
    exact List.eq_of_mem_replicate hearlier

theorem isCanonical_text (form : NormalForm) : IsCanonical form.text where
  no_backslash := form.no_backslash_text
  no_double_slash := form.no_double_slash_text
  no_slash_at_end := no_slash_at_end_text
  no_here hmem := form.here_not_mem_kept (mem_kept_of_mem_splitOn (by decide) hmem)
  no_up_of_absolute habs hmem := by
    rw [isAbsolute_text] at habs
    exact up_not_mem_kept_of_absolute habs (mem_kept_of_mem_splitOn (by decide) hmem)
  ups_first hrel := by
    rw [isAbsolute_text] at hrel
    rw [text_eq, hrel, if_neg Bool.false_ne_true]
    by_cases hne : form.kept = []
    · rw [body, hne]
      exact List.pairwise_singleton _ _
    · rw [splitOn_body hne]
      exact form.ups_first_kept

end NormalForm

/-! ## A canonical path is the text of a normal form -/

/-- A segment that is found in a canonical path is a name, or a step up. -/
theorem IsCanonical.isName_of_mem {path segment : List Char} (h : IsCanonical path)
    (hmem : segment ∈ path.splitOn '/') (hnil : segment ≠ []) (hup : segment ≠ up) :
    IsName segment where
  ne_nil := hnil
  ne_here := fun heq => h.no_here (heq ▸ hmem)
  ne_up := hup
  no_slash := not_mem_of_mem_splitOn hmem
  no_backslash := fun hback => h.no_backslash (subset_of_mem_splitOn hmem hback)

/-- What stands behind the `/` of a canonical absolute path holds no empty segment. -/
theorem IsCanonical.nil_not_mem_of_absolute {rest : List Char} (h : IsCanonical ('/' :: rest))
    (hne : rest ≠ []) : [] ∉ rest.splitOn '/' := by
  rw [nil_mem_splitOn_iff]
  rintro (hnil | hhead | hlast | hin)
  · exact hne hnil
  · obtain ⟨more, rfl⟩ := List.head?_eq_some_iff.1 hhead
    exact h.no_double_slash ⟨[], more, rfl⟩
  · rw [← List.getLast?_cons_of_ne_nil (x := '/') hne] at hlast
    exact hne (List.cons.inj (h.no_slash_at_end hlast)).2
  · exact h.no_double_slash (hin.trans (List.suffix_cons '/' rest).isInfix)

theorem IsCanonical.nil_not_mem_of_relative {path : List Char} (h : IsCanonical path)
    (hrel : isAbsolute path = false) (hne : path ≠ []) : [] ∉ path.splitOn '/' := by
  have hhead : path.head? ≠ some '/' := by simpa [isAbsolute] using hrel
  rw [nil_mem_splitOn_iff]
  rintro (hnil | hhead' | hlast | hin)
  · exact hne hnil
  · exact hhead hhead'
  · exact hhead (by rw [h.no_slash_at_end hlast]; rfl)
  · exact h.no_double_slash hin

/-- Segments in which `..` stands at the front only are some steps up and then others. -/
theorem exists_eq_replicate_append {segments : List (List Char)}
    (h : segments.Pairwise fun earlier later => later = up → earlier = up) :
    ∃ ups names, segments = List.replicate ups up ++ names ∧ up ∉ names := by
  induction segments with
  | nil => exact ⟨0, [], rfl, List.not_mem_nil⟩
  | cons segment rest ih =>
      obtain ⟨hfirst, hrest⟩ := List.pairwise_cons.1 h
      by_cases hup : segment = up
      · obtain ⟨ups, names, rfl, hnames⟩ := ih hrest
        exact ⟨ups + 1, names, by rw [hup, List.replicate_succ, List.cons_append], hnames⟩
      · refine ⟨0, segment :: rest, rfl, ?_⟩
        intro hmem
        rcases List.mem_cons.1 hmem with heq | hmem
        · exact hup heq.symm
        · exact hup (hfirst up hmem rfl)

theorem IsCanonical.exists_text_of_absolute {rest : List Char} (h : IsCanonical ('/' :: rest)) :
    ∃ form : NormalForm, '/' :: rest = form.text := by
  by_cases hne : rest = []
  · subst hne
    exact ⟨.start true, rfl⟩
  have hnil := h.nil_not_mem_of_absolute hne
  have hup := h.no_up_of_absolute rfl
  have hsub : ∀ segment ∈ rest.splitOn '/', segment ∈ ('/' :: rest).splitOn '/' := by
    intro segment hmem
    rw [splitOn_cons_self]
    exact List.mem_cons_of_mem _ hmem
  refine ⟨⟨true, 0, (rest.splitOn '/').reverse, fun _ => rfl, ?_⟩, ?_⟩
  · intro segment hmem
    have hmem := List.mem_reverse.1 hmem
    exact h.isName_of_mem (hsub segment hmem) (fun heq => hnil (heq ▸ hmem))
      (fun heq => hup (heq ▸ hsub segment hmem))
  · simp only [NormalForm.text, NormalForm.kept, List.replicate_zero, List.append_nil,
      List.reverse_reverse, List.intercalate_splitOn, if_true]

theorem IsCanonical.exists_text_of_relative {path : List Char} (h : IsCanonical path)
    (hrel : isAbsolute path = false) : ∃ form : NormalForm, path = form.text := by
  by_cases hne : path = []
  · subst hne
    exact ⟨.start false, rfl⟩
  have hnil := h.nil_not_mem_of_relative hrel hne
  obtain ⟨ups, names, hsegments, hup⟩ := exists_eq_replicate_append (h.ups_first hrel)
  have hsub : ∀ name ∈ names, name ∈ path.splitOn '/' := by
    intro name hmem
    rw [hsegments]
    exact List.mem_append_right _ hmem
  refine ⟨⟨false, ups, names.reverse, fun habs => absurd habs Bool.false_ne_true, ?_⟩, ?_⟩
  · intro name hmem
    have hmem := List.mem_reverse.1 hmem
    exact h.isName_of_mem (hsub name hmem) (fun heq => hnil (heq ▸ hsub name hmem))
      (fun heq => hup (heq ▸ hmem))
  · simp only [NormalForm.text, NormalForm.kept, List.reverse_append, List.reverse_replicate,
      List.reverse_reverse, ← hsegments, List.intercalate_splitOn, Bool.false_eq_true, if_false]

theorem isCanonical_iff_exists_text {path : List Char} :
    IsCanonical path ↔ ∃ form : NormalForm, path = form.text := by
  constructor
  · intro h
    cases habs : isAbsolute path with
    | true =>
        obtain ⟨rest, rfl⟩ := List.head?_eq_some_iff.1 (eq_of_beq habs)
        exact h.exists_text_of_absolute
    | false => exact h.exists_text_of_relative habs
  · rintro ⟨form, rfl⟩
    exact form.isCanonical_text

/-! ## Normalizing gives the canonical paths and keeps them -/

/-- The text of a normal form is normalized as it is. -/
theorem normalize_text (form : NormalForm) : normalize form.text = form.text := by
  obtain ⟨other, -, htext, happly⟩ := exists_normalForm form.text
  have hsame : other = form := NormalForm.eq_of_apply_eq fun base _ => by
    rw [happly, form.reach_text]
  rw [htext, hsame]

theorem isCanonical_normalize (path : List Char) : IsCanonical (normalize path) := by
  obtain ⟨form, -, htext, -⟩ := exists_normalForm path
  rw [htext]
  exact form.isCanonical_text

theorem normalize_eq_self_iff {path : List Char} : normalize path = path ↔ IsCanonical path := by
  constructor
  · intro h
    rw [← h]
    exact isCanonical_normalize path
  · intro h
    obtain ⟨form, rfl⟩ := isCanonical_iff_exists_text.1 h
    exact normalize_text form

theorem isAbsolute_normalize_iff (path : List Char) :
    isAbsolute (normalize path) = true ↔ path.head? = some '/' ∨ path.head? = some '\\' := by
  obtain ⟨form, habs, htext, -⟩ := exists_normalForm path
  rw [htext, form.isAbsolute_text, habs, isAbsolute_unify_iff]

/-- Normalizing any path gives a canonical one, which starts with `/` if and only if the path starts
with one of the separators. The canonical paths are those that it leaves as they are, so a second
time changes nothing. -/
theorem normalize_canonical :
    (∀ path, IsCanonical (normalize path) ∧
      ((normalize path).head? = some '/' ↔ path.head? = some '/' ∨ path.head? = some '\\')) ∧
    (∀ path, normalize path = path ↔ IsCanonical path) ∧
    ∀ path, normalize (normalize path) = normalize path := by
  refine ⟨fun path => ⟨isCanonical_normalize path, ?_⟩, fun _ => normalize_eq_self_iff,
    fun path => normalize_eq_self_iff.2 (isCanonical_normalize path)⟩
  rw [← isAbsolute_normalize_iff]
  exact beq_iff_eq.symm

/-- A step up that a relative path has no name for stays in front. -/
example : normalize "..\\a/./..//../b\\".toList = "../../b".toList := by decide +kernel

end ModuleGraph.TextPath
