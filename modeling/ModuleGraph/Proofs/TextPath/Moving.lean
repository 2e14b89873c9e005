import ModuleGraph.Proofs.TextPath.Relative

/-!
# Paths under another root

A whole tree may be put under a directory, so that the path of the directory stands in front of
every absolute path in the tree. The root itself is left out, on both sides: its path ends in the
`/` that the other begins with.

In a normal form the names of the directory are added behind those of the path, as the outermost
ones (`NormalForm.under`). A specifier read in the tree goes by the same names as before as long as
it finds a directory to leave at every `..`. At the root it would find none, and stay; under another
root it would leave that. So this is asked of it (`StaysInside`), step by step, since it is not
enough to know where a specifier ends. Then it leads to the same names with those of the directory
added (`foldl_follow_append`), and the joined path is the path that it was, under the directory
(`join_under`).
-/

namespace ModuleGraph.TextPath

variable {path root raw : List Char} {stack : List (List Char)}

/-- An absolute path in normal form, other than the root. -/
structure IsInner (path : List Char) : Prop where
  normal : normalize path = path
  absolute : isAbsolute path = true
  ne_root : path ≠ ['/']

/-- Whoever goes by the segments from the directories `stack` has a directory to leave at every
`..`. -/
def StaysInside : List (List Char) → List (List Char) → Prop
  | _, [] => True
  | stack, segment :: rest => (segment = up → stack ≠ []) ∧ StaysInside (follow stack segment) rest

instance decidableStaysInside : ∀ stack segments, Decidable (StaysInside stack segments)
  | _, [] => isTrue trivial
  | stack, segment :: rest =>
    have := decidableStaysInside (follow stack segment) rest
    inferInstanceAs (Decidable ((segment = up → stack ≠ []) ∧ StaysInside _ rest))

/-- The specifier is relative, and leads from the directories `stack` to a place other than the root
without a `..` at the root on its way. -/
structure LeadsInside (raw : List Char) (stack : List (List Char)) : Prop where
  relative : raw.head? ≠ some '/' ∧ raw.head? ≠ some '\\'
  stays : StaysInside stack ((unify raw).splitOn '/')
  ends : reach raw stack ≠ []

/-! ## Where a specifier leads -/

theorem follow_append {segment : List Char} (h : segment = up → stack ≠ [])
    (below : List (List Char)) : follow (stack ++ below) segment = follow stack segment ++ below := by
  unfold follow
  split
  · rfl
  split
  · next hup => exact List.tail_append_of_ne_nil (h hup)
  · rfl

theorem foldl_follow_append {segments : List (List Char)} (h : StaysInside stack segments)
    (below : List (List Char)) :
    segments.foldl follow (stack ++ below) = segments.foldl follow stack ++ below := by
  induction segments generalizing stack with
  | nil => rfl
  | cons segment rest ih =>
      obtain ⟨hup, hrest⟩ := h
      rw [List.foldl_cons, follow_append hup, ih hrest, List.foldl_cons]

theorem LeadsInside.isAbsolute_eq (h : LeadsInside raw stack) : isAbsolute (unify raw) = false := by
  rw [← Bool.not_eq_true, isAbsolute_unify_iff, not_or]
  exact h.relative

theorem LeadsInside.reach_append (h : LeadsInside raw stack) (below : List (List Char)) :
    reach raw (stack ++ below) = reach raw stack ++ below := by
  rw [reach, reach, h.isAbsolute_eq]
  exact foldl_follow_append h.stays below

/-! ## Normal forms under another root -/

namespace NormalForm

/-- The absolute form with the names of `root` outside of its own. -/
def under (root form : NormalForm) : NormalForm where
  absolute := true
  ups := 0
  names := form.names ++ root.names
  ups_eq_zero := fun _ => rfl
  isName := by
    intro name hmem
    rcases List.mem_append.1 hmem with hmem | hmem
    · exact form.isName name hmem
    · exact root.isName name hmem

theorem names_ne_nil {form : NormalForm} (habs : form.absolute = true) (hne : form.text ≠ ['/']) :
    form.names ≠ [] :=
  fun hnil => hne (text_of_nil habs hnil)

theorem text_under {root form : NormalForm} (hroot : root.absolute = true)
    (habs : form.absolute = true) (hrootNames : root.names ≠ []) (hnames : form.names ≠ []) :
    (root.under form).text = root.text ++ form.text := by
  have hunder : (root.under form).names.reverse = root.names.reverse ++ form.names.reverse :=
    List.reverse_append
  have hunderAbs : (root.under form).absolute = true := rfl
  rw [text_of_absolute hunderAbs, text_of_absolute hroot, text_of_absolute habs, hunder,
    intercalate_append (List.reverse_ne_nil_iff.2 hrootNames) (List.reverse_ne_nil_iff.2 hnames)]
  rfl

/-- The directory of what is put under a root is put under it with it. -/
theorem outer_under {root form : NormalForm} (hnames : form.names ≠ []) :
    (root.under form).outer = root.under form.outer := by
  refine NormalForm.ext rfl rfl ?_
  exact List.tail_append_of_ne_nil hnames

/-- A specifier joins to the absolute form whose names it leads to. -/
theorem join_eq_of_reach {dir form : NormalForm} (hdir : dir.absolute = true)
    (habs : form.absolute = true) (h : reach raw dir.names = form.names) :
    join dir.text raw = form.text := by
  refine join_eq_text habs fun base => ?_
  rw [reach_text_of_absolute hdir, segments_text_of_absolute hdir, List.reverse_reverse, h,
    segments_text_of_absolute habs, List.reverse_reverse]

/-- What a relative specifier leads to from an absolute directory is an absolute form again. -/
theorem exists_reach {dir : NormalForm} (hdir : dir.absolute = true)
    (hrel : isAbsolute (unify raw) = false) :
    ∃ form : NormalForm, form.absolute = true ∧ reach raw dir.names = form.names := by
  have hsegments : ∀ segment ∈ (unify raw).splitOn '/', '/' ∉ segment ∧ '\\' ∉ segment := by
    intro segment hmem
    exact ⟨not_mem_of_mem_splitOn hmem,
      fun hback => no_backslash_unify raw (subset_of_mem_splitOn hmem hback)⟩
  obtain ⟨form, habs, -, happly⟩ := dir.exists_foldl_enter hsegments
  refine ⟨form, habs.trans hdir, ?_⟩
  rw [← form.apply_nil, happly, dir.apply_nil, reach, hrel]
  rfl

end NormalForm

theorem IsInner.exists_text (h : IsInner path) :
    ∃ form : NormalForm, form.absolute = true ∧ form.names ≠ [] ∧ path = form.text := by
  obtain ⟨form, rfl⟩ := isCanonical_iff_exists_text.1 (normalize_eq_self_iff.1 h.normal)
  have habs : form.absolute = true := by rw [← form.isAbsolute_text, h.absolute]
  exact ⟨form, habs, NormalForm.names_ne_nil habs h.ne_root, rfl⟩

theorem NormalForm.isInner_text {form : NormalForm} (habs : form.absolute = true)
    (hnames : form.names ≠ []) : IsInner form.text := by
  refine ⟨normalize_text form, form.isAbsolute_text.trans habs, fun hroot => hnames ?_⟩
  have hsegments := congrArg segments hroot
  rw [segments_text_of_absolute habs] at hsegments
  exact List.reverse_eq_nil_iff.1 hsegments

/-! ## Paths under another root -/

theorem IsInner.append (hroot : IsInner root) (hpath : IsInner path) : IsInner (root ++ path) := by
  obtain ⟨root, hrootAbs, hrootNames, rfl⟩ := hroot.exists_text
  obtain ⟨form, habs, hnames, rfl⟩ := hpath.exists_text
  rw [← NormalForm.text_under hrootAbs habs hrootNames hnames]
  exact NormalForm.isInner_text rfl (List.append_ne_nil_of_left_ne_nil hnames _)

/-- A specifier that stays inside the tree joins to the same path, under the directory that the tree
is put under. -/
theorem join_under (hroot : IsInner root) (hpath : IsInner path)
    (hraw : LeadsInside raw (segments (parent path)).reverse) :
    IsInner (join (parent path) raw) ∧
      join (parent (root ++ path)) raw = root ++ join (parent path) raw := by
  obtain ⟨root, hrootAbs, hrootNames, rfl⟩ := hroot.exists_text
  obtain ⟨form, habs, hnames, rfl⟩ := hpath.exists_text
  have hdir : form.outer.absolute = true := habs
  rw [NormalForm.parent_text habs, NormalForm.segments_text_of_absolute hdir,
    List.reverse_reverse] at hraw
  obtain ⟨joined, hjoinedAbs, hjoined⟩ := NormalForm.exists_reach hdir hraw.isAbsolute_eq
  have hjoinedNames : joined.names ≠ [] := hjoined ▸ hraw.ends
  have hunderAbs : (root.under form).absolute = true := rfl
  have hunder : reach raw (root.under form.outer).names = (root.under joined).names := by
    show reach raw (form.outer.names ++ root.names) = joined.names ++ root.names
    rw [hraw.reach_append, hjoined]
  rw [NormalForm.parent_text habs, NormalForm.join_eq_of_reach hdir hjoinedAbs hjoined,
    ← NormalForm.text_under hrootAbs habs hrootNames hnames,
    NormalForm.parent_text hunderAbs, NormalForm.outer_under hnames,
    NormalForm.join_eq_of_reach rfl rfl hunder]
  exact ⟨NormalForm.isInner_text hjoinedAbs hjoinedNames,
    NormalForm.text_under hrootAbs hjoinedAbs hrootNames hjoinedNames⟩

end ModuleGraph.TextPath
