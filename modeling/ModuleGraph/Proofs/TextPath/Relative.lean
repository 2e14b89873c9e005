import ModuleGraph.Proofs.TextPath.Joining

/-!
# Specifiers that lead from one directory to another

From a directory one comes to any other path by going up until a directory is reached that both have
in common, and down from there. `relative` writes this as a specifier. Which common directory is
taken does not matter, the innermost one or one further out: if the segments of the directory are
`common ++ left` and those of the path `common ++ rest`, one step up for each segment that is left
and then `rest` is a specifier that joins to the path itself (`join_relative`).

All paths here are absolute and written in normal form. What is cut off the end of such a path, as
its directory and its file name, is seen from the names of the form (`parent_text`,
`fileName_text`); the root is its own directory, and its file name is empty.
-/

namespace ModuleGraph.TextPath

/-- The specifier that goes `ups` directories up and then down by `names`. -/
def relative (ups : Nat) (names : List (List Char)) : List Char :=
  let path := List.intercalate ['/'] (List.replicate ups up ++ names)
  if ups = 0 then here ++ '/' :: path else path

/-! ## Where a specifier leads -/

/-- A `./` in front of a relative path leads nowhere. -/
theorem reach_here_slash {raw : List Char} (hrel : isAbsolute (unify raw) = false)
    (base : List (List Char)) : reach (here ++ '/' :: raw) base = reach raw base :=
  reach_append (by decide) hrel base

theorem reach_relative {names : List (List Char)} (h : ∀ name ∈ names, IsName name) (ups : Nat)
    (base : List (List Char)) : reach (relative ups names) base = names.reverse ++ base.drop ups := by
  have hnames : ∀ name ∈ names.reverse, IsName name := fun name hmem =>
    h name (List.mem_reverse.1 hmem)
  let form : NormalForm :=
    ⟨false, ups, names.reverse, fun habs => absurd habs Bool.false_ne_true, hnames⟩
  have htext : form.text = List.intercalate ['/'] (List.replicate ups up ++ names) := by
    simp only [form, NormalForm.text, NormalForm.kept, List.reverse_append, List.reverse_replicate,
      List.reverse_reverse, Bool.false_eq_true, if_false]
  have hrel : isAbsolute (unify form.text) = false := by
    rw [unify_of_no_backslash form.no_backslash_text, form.isAbsolute_text]
  have hreach : reach (relative ups names) base = reach form.text base := by
    rw [relative, ← htext]
    split
    · exact reach_here_slash hrel base
    · rfl
  rw [hreach, form.reach_text]
  rfl

theorem join_here_slash {raw : List Char} (hrel : isAbsolute (unify raw) = false)
    (dir : List Char) : join dir (here ++ '/' :: raw) = join dir raw := by
  refine join_eq_join ?_
  intro base
  exact reach_here_slash hrel _

namespace NormalForm

/-! ## Segments of absolute paths -/

theorem segments_text (form : NormalForm) : segments form.text = form.kept.reverse := by
  obtain ⟨other, -, hkept, happly⟩ := exists_normalForm_segments form.text
  have hsame : other = form := eq_of_apply_eq fun base _ => by
    rw [happly, form.reach_text]
  rw [← hsame, hkept, hsame, unify_of_no_backslash form.no_backslash_text]

/-- The segments of an absolute path are its names, the outermost first. -/
theorem segments_text_of_absolute {form : NormalForm} (habs : form.absolute = true) :
    segments form.text = form.names.reverse := by
  rw [segments_text, kept, form.ups_eq_zero habs, List.replicate_zero, List.append_nil]

theorem reach_text_of_absolute {form : NormalForm} (habs : form.absolute = true)
    (base : List (List Char)) : reach form.text base = (segments form.text).reverse := by
  rw [form.reach_text, segments_text_of_absolute habs, List.reverse_reverse, apply, if_pos habs,
    List.append_nil]

/-- A specifier joins to an absolute path if it leads there from the directory. -/
theorem join_eq_text {form : NormalForm} (habs : form.absolute = true) {dir raw : List Char}
    (h : ∀ base, reach raw (reach dir base) = (segments form.text).reverse) :
    join dir raw = form.text := by
  rw [← normalize_join, ← normalize_text form]
  refine normalize_eq_of_reach_eq ?_
  intro base _
  rw [reach_join, h, reach_text_of_absolute habs]

/-- An absolute path is joined to itself, from wherever it is read. -/
theorem join_text {form : NormalForm} (habs : form.absolute = true) (dir : List Char) :
    join dir form.text = form.text :=
  join_eq_text habs fun _ => reach_text_of_absolute habs _

/-- Up to a directory that is common to both, and down from there. -/
theorem join_relative {dir form : NormalForm} (hdir : dir.absolute = true)
    (habs : form.absolute = true) {common left rest : List (List Char)}
    (hleft : segments dir.text = common ++ left) (hrest : segments form.text = common ++ rest) :
    join dir.text (relative left.length rest) = form.text := by
  have hnames : ∀ name ∈ rest, IsName name := by
    intro name hmem
    refine form.isName name (List.mem_reverse.1 ?_)
    rw [← segments_text_of_absolute habs, hrest]
    exact List.mem_append_right _ hmem
  refine join_eq_text habs ?_
  intro base
  have hdrop : (left.reverse ++ common.reverse).drop left.length = common.reverse :=
    List.drop_left' (List.length_reverse ..)
  rw [reach_relative hnames, reach_text_of_absolute hdir, hleft, hrest, List.reverse_append,
    List.reverse_append, hdrop]

/-! ## The directory and the name of a file -/

/-- The form without its innermost name. -/
def outer (form : NormalForm) : NormalForm :=
  { form with
    names := form.names.tail
    isName := fun name hmem => form.isName name (List.mem_of_mem_tail hmem) }

theorem names_outer (form : NormalForm) : form.outer.names = form.names.tail := rfl

theorem text_of_absolute {form : NormalForm} (habs : form.absolute = true) :
    form.text = '/' :: List.intercalate ['/'] form.names.reverse := by
  rw [text, kept, habs, form.ups_eq_zero habs, List.replicate_zero, List.append_nil]
  rfl

/-- The pieces between the slashes of an absolute path that is not the root. -/
theorem splitOn_text_of_cons {form : NormalForm} (habs : form.absolute = true) {name : List Char}
    {below : List (List Char)} (hnames : form.names = name :: below) :
    form.text.splitOn '/' = ([] :: below.reverse) ++ [name] := by
  have hslash : ∀ segment ∈ form.names.reverse, '/' ∉ segment := fun segment hmem =>
    (form.isName segment (List.mem_reverse.1 hmem)).no_slash
  have hne : form.names.reverse ≠ [] := by
    rw [hnames]
    exact List.reverse_ne_nil_iff.2 (List.cons_ne_nil _ _)
  rw [text_of_absolute habs, splitOn_cons_self, List.splitOn_intercalate '/' hslash hne, hnames,
    List.reverse_cons, List.cons_append]

theorem text_of_nil {form : NormalForm} (habs : form.absolute = true) (hnames : form.names = []) :
    form.text = ['/'] := by
  rw [text_of_absolute habs, hnames]
  rfl

theorem parent_text {form : NormalForm} (habs : form.absolute = true) :
    parent form.text = form.outer.text := by
  have hdir : form.outer.absolute = true := habs
  rw [text_of_absolute hdir, names_outer]
  cases hnames : form.names with
  | nil =>
      rw [text_of_nil habs hnames]
      rfl
  | cons name below =>
      rw [parent, splitOn_text_of_cons habs hnames, List.dropLast_concat]
      dsimp only [List.tail_cons]
      cases hdir : below.reverse with
      | nil => rfl
      | cons first more => rfl

theorem fileName_text {form : NormalForm} (habs : form.absolute = true) :
    fileName form.text = form.names.headD [] := by
  cases hnames : form.names with
  | nil =>
      rw [text_of_nil habs hnames]
      rfl
  | cons name below =>
      rw [fileName, splitOn_text_of_cons habs hnames, List.getLastD_concat]
      rfl

theorem isAbsolute_fileName {form : NormalForm} (habs : form.absolute = true) :
    isAbsolute (unify (fileName form.text)) = false := by
  rw [fileName_text habs]
  cases hnames : form.names with
  | nil => rfl
  | cons name below =>
      have hname : IsName name := form.isName name (hnames ▸ List.mem_cons_self)
      rw [← Bool.not_eq_true, isAbsolute_unify_iff]
      rintro (hhead | hhead)
      · exact hname.no_slash (List.mem_of_head? hhead)
      · exact hname.no_backslash (List.mem_of_head? hhead)

/-- The last segment of a file's path is its name, and the others are those of its directory. -/
theorem segments_text_eq_append {form : NormalForm} (habs : form.absolute = true) :
    segments form.text = segments form.outer.text ++ form.names.head?.toList := by
  have hdir : form.outer.absolute = true := habs
  rw [segments_text_of_absolute habs, segments_text_of_absolute hdir, names_outer]
  cases form.names with
  | nil => rfl
  | cons name below => exact List.reverse_cons

/-- A file is found under its own name from the directory that holds it. -/
theorem join_fileName {form : NormalForm} (habs : form.absolute = true) :
    join (parent form.text) (fileName form.text) = form.text := by
  have hdir : form.outer.absolute = true := habs
  have hname : here ++ '/' :: fileName form.text = relative 0 form.names.head?.toList := by
    rw [fileName_text habs]
    cases form.names with
    | nil => rfl
    | cons name below => exact (congrArg (here ++ '/' :: ·) (List.intercalate_singleton)).symm
  rw [parent_text habs, ← join_here_slash (isAbsolute_fileName habs), hname]
  exact join_relative hdir habs (List.append_nil _).symm (segments_text_eq_append habs)

end NormalForm

end ModuleGraph.TextPath
