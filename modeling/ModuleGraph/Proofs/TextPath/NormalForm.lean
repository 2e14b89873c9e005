import ModuleGraph.Proofs.Splitting
import ModuleGraph.TextPath

/-!
# Normal forms of paths

A path is read from a stack of directories, the innermost first. `follow` goes one segment further,
and `reach` a whole path: an absolute one from the root, whatever the stack, and a relative one
from the stack.

However long a path is, it comes to some steps up and then some names to go down by, and an
absolute path to names only. This is its `NormalForm`. One more segment leads from one normal form
to another (`exists_isNext`): it adds a name, takes back the innermost one, or goes one step further
up. The segments that `normalize` keeps and the stack that the path reaches are two views of that
form, and every step changes both alike, so both are known for whole paths (`exists_normalForm`).

A normal form is written as a path that reads back as it (`reach_text`), and two of them that lead
to the same stacks are the same (`eq_of_apply_eq`): the empty stack shows the names, and one that is
deep enough the number of steps up, which none is for an absolute path.
-/

namespace ModuleGraph.TextPath

/-! ## Where a path leads -/

/-- One segment further from the directories `stack`. Leaving the root leads to the root. -/
def follow (stack : List (List Char)) (segment : List Char) : List (List Char) :=
  if segment = [] ∨ segment = here then stack
  else if segment = up then stack.tail
  else segment :: stack

/-- The directories that `path` leads to from the directories `base`. -/
def reach (path : List Char) (base : List (List Char)) : List (List Char) :=
  let path := unify path
  (path.splitOn '/').foldl follow (if isAbsolute path then [] else base)

/-- A segment that is the name of a file or directory. -/
structure IsName (segment : List Char) : Prop where
  ne_nil : segment ≠ []
  ne_here : segment ≠ here
  ne_up : segment ≠ up
  no_slash : '/' ∉ segment
  no_backslash : '\\' ∉ segment

theorem follow_of_isName {segment : List Char} (h : IsName segment) (stack : List (List Char)) :
    follow stack segment = segment :: stack := by
  unfold follow
  rw [if_neg (not_or.2 ⟨h.ne_nil, h.ne_here⟩), if_neg h.ne_up]

theorem foldl_follow_names {names : List (List Char)} (h : ∀ name ∈ names, IsName name)
    (stack : List (List Char)) : names.reverse.foldl follow stack = names ++ stack := by
  induction names with
  | nil => rfl
  | cons name names ih =>
      obtain ⟨hname, hnames⟩ := List.forall_mem_cons.1 h
      rw [List.reverse_cons, List.foldl_append, ih hnames]
      exact follow_of_isName hname _

theorem foldl_follow_ups (ups : Nat) (stack : List (List Char)) :
    (List.replicate ups up).foldl follow stack = stack.drop ups := by
  induction ups generalizing stack with
  | zero => rfl
  | succ ups ih =>
      rw [List.replicate_succ, List.foldl_cons, ih]
      show stack.tail.drop ups = stack.drop (ups + 1)
      rw [List.drop_tail]

/-- Empty segments lead nowhere. -/
theorem foldl_follow_filter (segments stack : List (List Char)) :
    (segments.filter (· ≠ [])).foldl follow stack = segments.foldl follow stack := by
  induction segments generalizing stack with
  | nil => rfl
  | cons segment segments ih =>
      by_cases hnil : segment = []
      · subst hnil
        exact ih stack
      · rw [List.filter_cons_of_pos (by simpa using hnil)]
        exact ih (follow stack segment)

/-! ## Normal forms -/

/-- What a path comes to: some steps up, none of them if it is absolute, and then some names to go
down by, the innermost first. -/
@[ext]
structure NormalForm where
  absolute : Bool
  ups : Nat
  names : List (List Char)
  ups_eq_zero : absolute = true → ups = 0
  isName : ∀ name ∈ names, IsName name

namespace NormalForm

/-- The segments, the innermost first. -/
def kept (form : NormalForm) : List (List Char) :=
  form.names ++ List.replicate form.ups up

/-- The path that is written with these segments. -/
def text (form : NormalForm) : List Char :=
  let body := List.intercalate ['/'] form.kept.reverse
  if form.absolute then '/' :: body else body

/-- The directories that it leads to from the directories `base`. -/
def apply (form : NormalForm) (base : List (List Char)) : List (List Char) :=
  form.names ++ (if form.absolute then [] else base.drop form.ups)

/-- The form of the root, or of the empty relative path. -/
def start (absolute : Bool) : NormalForm where
  absolute := absolute
  ups := 0
  names := []
  ups_eq_zero := fun _ => rfl
  isName := fun _ h => absurd h List.not_mem_nil

/-! ### One segment more -/

/-- `next` is `form` with one segment more, in what is kept of the path and in where it leads. -/
structure IsNext (form : NormalForm) (segment : List Char) (next : NormalForm) : Prop where
  absolute_eq : next.absolute = form.absolute
  kept_eq : next.kept = enter form.absolute form.kept segment
  apply_eq : ∀ base, next.apply base = follow (form.apply base) segment

/-- One step up from no names: the root stays the root, and a relative path goes further up. -/
theorem exists_isNext_up_of_nil {form : NormalForm} (hnil : form.names = []) :
    ∃ next, form.IsNext up next := by
  obtain ⟨absolute, ups, names, hups, hnames⟩ := form
  cases hnil
  cases absolute with
  | true =>
      cases hups rfl
      exact ⟨start true, rfl, rfl, fun _ => rfl⟩
  | false =>
      refine ⟨⟨false, ups + 1, [], fun h => absurd h Bool.false_ne_true, hnames⟩, rfl, ?_, ?_⟩
      · show List.replicate (ups + 1) up = enter false (List.replicate ups up) up
        cases ups with
        | zero => rfl
        | succ ups => rfl
      · intro base
        show base.drop (ups + 1) = (base.drop ups).tail
        rw [List.tail_drop]

/-- One step up from some names takes the innermost one back. -/
theorem exists_isNext_up_of_cons {form : NormalForm} {name : List Char}
    {below : List (List Char)} (hcons : form.names = name :: below) :
    ∃ next, form.IsNext up next := by
  obtain ⟨absolute, ups, names, hups, hnames⟩ := form
  cases hcons
  obtain ⟨hname, hbelow⟩ := List.forall_mem_cons.1 hnames
  refine ⟨⟨absolute, ups, below, hups, hbelow⟩, rfl, ?_, fun _ => rfl⟩
  show below ++ List.replicate ups up = enter absolute (name :: (below ++ List.replicate ups up)) up
  unfold enter
  rw [if_neg (by decide), if_pos rfl]
  exact (if_neg hname.ne_up).symm

theorem exists_isNext (form : NormalForm) {segment : List Char} (hslash : '/' ∉ segment)
    (hback : '\\' ∉ segment) : ∃ next, form.IsNext segment next := by
  by_cases hskip : segment = [] ∨ segment = here
  · exact ⟨form, rfl, (if_pos hskip).symm, fun _ => (if_pos hskip).symm⟩
  by_cases hup : segment = up
  · subst hup
    cases hnames : form.names with
    | nil => exact exists_isNext_up_of_nil hnames
    | cons name below => exact exists_isNext_up_of_cons hnames
  · obtain ⟨hnil, hhere⟩ := not_or.1 hskip
    have hname : IsName segment := ⟨hnil, hhere, hup, hslash, hback⟩
    refine ⟨⟨form.absolute, form.ups, segment :: form.names, form.ups_eq_zero,
      List.forall_mem_cons.2 ⟨hname, form.isName⟩⟩, rfl, ?_, ?_⟩
    · unfold enter
      rw [if_neg hskip, if_neg hup]
      rfl
    · intro base
      rw [follow_of_isName hname]
      rfl

/-! ### Whole paths -/

theorem exists_foldl_enter (form : NormalForm) {segments : List (List Char)}
    (h : ∀ segment ∈ segments, '/' ∉ segment ∧ '\\' ∉ segment) :
    ∃ next : NormalForm, next.absolute = form.absolute ∧
      next.kept = segments.foldl (enter form.absolute) form.kept ∧
      ∀ base, next.apply base = segments.foldl follow (form.apply base) := by
  induction segments generalizing form with
  | nil => exact ⟨form, rfl, rfl, fun _ => rfl⟩
  | cons segment segments ih =>
      obtain ⟨⟨hslash, hback⟩, hrest⟩ := List.forall_mem_cons.1 h
      obtain ⟨mid, hmid⟩ := form.exists_isNext hslash hback
      obtain ⟨next, habs, hkept, happly⟩ := ih mid hrest
      refine ⟨next, habs.trans hmid.absolute_eq, ?_, ?_⟩
      · rw [hkept, hmid.absolute_eq, hmid.kept_eq]
        rfl
      · intro base
        rw [happly, hmid.apply_eq]
        rfl

end NormalForm

theorem no_backslash_unify (path : List Char) : '\\' ∉ unify path := by
  intro hmem
  obtain ⟨c, -, hc⟩ := List.mem_map.1 hmem
  split at hc
  · exact absurd hc (by decide)
  · next hne => exact hne hc

theorem unify_of_no_backslash {path : List Char} (h : '\\' ∉ path) : unify path = path := by
  have hkept : ∀ c ∈ path, (if c = '\\' then '/' else c) = id c := by
    intro c hc
    refine if_neg ?_
    rintro rfl
    exact h hc
  rw [unify, List.map_congr_left hkept, List.map_id]

/-- The segments that a path comes down to, and where it leads, are those of one normal form. -/
theorem exists_normalForm_segments (path : List Char) :
    ∃ form : NormalForm, form.absolute = isAbsolute (unify path) ∧
      form.kept.reverse = segments (unify path) ∧ ∀ base, form.apply base = reach path base := by
  have hsegments : ∀ segment ∈ (unify path).splitOn '/', '/' ∉ segment ∧ '\\' ∉ segment := by
    intro segment hmem
    exact ⟨not_mem_of_mem_splitOn hmem,
      fun hback => no_backslash_unify path (subset_of_mem_splitOn hmem hback)⟩
  obtain ⟨form, habs, hkept, happly⟩ :=
    (NormalForm.start (isAbsolute (unify path))).exists_foldl_enter hsegments
  refine ⟨form, habs, congrArg List.reverse hkept, ?_⟩
  intro base
  rw [happly]
  rfl

/-- What a path is written as, and where it leads, is that of one normal form. -/
theorem exists_normalForm (path : List Char) :
    ∃ form : NormalForm, form.absolute = isAbsolute (unify path) ∧ normalize path = form.text ∧
      ∀ base, form.apply base = reach path base := by
  obtain ⟨form, habs, hkept, happly⟩ := exists_normalForm_segments path
  refine ⟨form, habs, ?_, happly⟩
  rw [NormalForm.text, habs, hkept]
  rfl

namespace NormalForm

/-! ### Written and read back -/

theorem mem_kept {form : NormalForm} {segment : List Char} (h : segment ∈ form.kept.reverse) :
    (segment ≠ [] ∧ '/' ∉ segment) ∧ '\\' ∉ segment := by
  rcases List.mem_append.1 (List.mem_reverse.1 h) with h | h
  · have hname := form.isName segment h
    exact ⟨⟨hname.ne_nil, hname.no_slash⟩, hname.no_backslash⟩
  · rw [List.eq_of_mem_replicate h]
    decide

theorem no_backslash_text (form : NormalForm) : '\\' ∉ form.text := by
  have hbody : '\\' ∉ List.intercalate ['/'] form.kept.reverse :=
    not_mem_intercalate (by decide) fun segment hmem => (mem_kept hmem).2
  unfold text
  split
  · intro hmem
    rcases List.mem_cons.1 hmem with heq | hmem
    · exact absurd heq (by decide)
    · exact hbody hmem
  · exact hbody

theorem isAbsolute_text (form : NormalForm) : isAbsolute form.text = form.absolute := by
  unfold text
  split
  · next habs => exact habs.symm
  · next hrel =>
    rw [Bool.not_eq_true] at hrel
    rw [hrel]
    cases hkept : form.kept.reverse with
    | nil => rfl
    | cons first rest =>
        obtain ⟨⟨hnil, hslash⟩, -⟩ := mem_kept (hkept ▸ List.mem_cons_self)
        obtain ⟨c, cs, rfl⟩ := List.exists_cons_of_ne_nil hnil
        have hc : c ≠ '/' := fun heq => hslash (heq ▸ List.mem_cons_self)
        rw [List.intercalate_cons_cons_left]
        simpa [isAbsolute] using hc

/-- The segments are found again in the text. -/
theorem filter_splitOn_text (form : NormalForm) :
    (form.text.splitOn '/').filter (· ≠ []) = form.kept.reverse := by
  have hbody : ((List.intercalate ['/'] form.kept.reverse).splitOn '/').filter (· ≠ []) =
      form.kept.reverse := filter_splitOn_intercalate fun segment hmem => (mem_kept hmem).1
  unfold text
  split
  · rw [splitOn_cons_self]
    exact hbody
  · exact hbody

/-- The text of a normal form leads where the form does. -/
theorem reach_text (form : NormalForm) (base : List (List Char)) :
    reach form.text base = form.apply base := by
  have hkept : form.kept.reverse = List.replicate form.ups up ++ form.names.reverse := by
    rw [kept, List.reverse_append, List.reverse_replicate]
  show ((unify form.text).splitOn '/').foldl follow
      (if isAbsolute (unify form.text) then [] else base) =
    form.names ++ (if form.absolute then [] else base.drop form.ups)
  rw [unify_of_no_backslash form.no_backslash_text, isAbsolute_text, ← foldl_follow_filter,
    filter_splitOn_text, hkept, List.foldl_append, foldl_follow_ups, foldl_follow_names form.isName]
  split
  · rw [List.drop_nil]
  · rfl

/-! ### Told by where it leads -/

theorem apply_nil (form : NormalForm) : form.apply [] = form.names := by
  unfold apply
  split
  · exact List.append_nil _
  · rw [List.drop_nil, List.append_nil]

/-- Normal forms that lead from any stack of names to the same directories are the same. -/
theorem eq_of_apply_eq {form other : NormalForm}
    (h : ∀ base, (∀ name ∈ base, IsName name) → form.apply base = other.apply base) :
    form = other := by
  have hnames : form.names = other.names := by
    rw [← form.apply_nil, ← other.apply_nil]
    exact h [] fun _ hmem => absurd hmem List.not_mem_nil
  -- deep enough that neither relative form leaves all of it
  have hdeep := h (List.replicate (form.ups + other.ups + 1) ['a']) fun name hmem => by
    rw [List.eq_of_mem_replicate hmem]
    exact ⟨by decide, by decide, by decide, by decide, by decide⟩
  have hlength := congrArg List.length hdeep
  simp only [apply, hnames, List.length_append] at hlength
  obtain ⟨absolute, ups, names, hups, hform⟩ := form
  obtain ⟨absolute', ups', names', hups', hother⟩ := other
  cases hnames
  cases absolute <;> cases absolute' <;> simp at hlength hups hups' ⊢ <;> omega

end NormalForm

end ModuleGraph.TextPath
