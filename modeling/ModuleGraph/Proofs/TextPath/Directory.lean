import Mathlib.Logic.Function.Iterate
import ModuleGraph.Proofs.Graph.Canonical
import ModuleGraph.Proofs.TextPath.Relative

/-!
# A path is its directory and its name

A path is cut at its last `/`. There are three ways in which this can go (`Cut`): there is no `/`,
and the directory is empty; there is none but the first character, and the directory is the root; or
something stands before it, and this is the directory. Each is one of the three results of `parent`,
which are therefore all that has to be gone through (`cut_parent_fileName`).

If the path is in normal form, so is its directory: the text before a `/` has no defect that the
whole does not have, but for a `/` at its own end, and that would make two in a row. And the name,
read from the directory, leads back to the path, also if it is a `..` that was left over at the
front of a relative path (`Cut.join_eq`).

The directory of a path is shorter than the path, unless this is the root or empty. So from one
directory to the next one comes to the root if the path is absolute, and otherwise to the empty path
(`exists_iterate_parent`).
-/

namespace ModuleGraph

namespace TextPath

variable {path dir name front : List Char}

/-- `path` is cut at its last `/` into `dir` and `name`. -/
inductive Cut : List Char → List Char → List Char → Prop
  | bare {name : List Char} : '/' ∉ name → Cut name [] name
  | root {name : List Char} : '/' ∉ name → Cut ('/' :: name) ['/'] name
  | inner {dir name : List Char} : dir ≠ [] → '/' ∉ name → Cut (dir ++ '/' :: name) dir name

/-! ## The two parts -/

theorem exists_cut (path : List Char) : ∃ dir name, Cut path dir name := by
  by_cases h : '/' ∈ path
  · obtain ⟨front, name, rfl, hname⟩ := exists_last_cut h
    by_cases hne : front = []
    · subst hne
      exact ⟨_, _, .root hname⟩
    · exact ⟨_, _, .inner hne hname⟩
  · exact ⟨_, _, .bare h⟩

theorem Cut.fileName_eq (h : Cut path dir name) : fileName path = name := by
  cases h with
  | bare hname =>
      rw [fileName, List.splitOn_eq_singleton hname]
      rfl
  | root hname =>
      rw [fileName, splitOn_cons_self, List.splitOn_eq_singleton hname]
      rfl
  | inner _ hname =>
      rw [fileName, List.splitOn_append_cons_self, List.splitOn_eq_singleton hname,
        List.getLastD_concat]

theorem Cut.parent_eq (h : Cut path dir name) : parent path = dir := by
  cases h with
  | bare hname =>
      rw [parent, List.splitOn_eq_singleton hname]
      rfl
  | root hname =>
      rw [parent, splitOn_cons_self, List.splitOn_eq_singleton hname]
      rfl
  | inner hne hname =>
      rw [parent, List.splitOn_append_cons_self, List.splitOn_eq_singleton hname,
        List.dropLast_concat]
      split
      · next hnil => exact absurd hnil (List.splitOn_ne_nil _ _)
      · rw [List.intercalate_splitOn, if_neg (by simpa using hne)]

theorem cut_parent_fileName (path : List Char) : Cut path (parent path) (fileName path) := by
  obtain ⟨dir, name, h⟩ := exists_cut path
  rw [h.parent_eq, h.fileName_eq]
  exact h

theorem Cut.no_slash (h : Cut path dir name) : '/' ∉ name := by
  cases h with
  | bare hname => exact hname
  | root hname => exact hname
  | inner _ hname => exact hname

theorem Cut.subset (h : Cut path dir name) : name ⊆ path := by
  cases h with
  | bare => exact List.Subset.refl _
  | root => exact List.subset_cons_self _ _
  | inner => exact fun c hc => List.mem_append_right _ (List.mem_cons_of_mem _ hc)

theorem Cut.isAbsolute_eq (h : Cut path dir name) : isAbsolute dir = isAbsolute path := by
  cases h with
  | bare hname =>
      have hhead : path.head? ≠ some '/' := fun hhead => hname (List.mem_of_head? hhead)
      exact (beq_eq_false_iff_ne.2 hhead).symm
  | root => rfl
  | inner hne _ =>
      obtain ⟨c, cs, rfl⟩ := List.exists_cons_of_ne_nil hne
      rfl

/-- The directory is shorter than the path, unless nothing was cut off. -/
theorem Cut.length_lt (h : Cut path dir name) (hnil : path ≠ []) (hroot : path ≠ ['/']) :
    dir.length < path.length := by
  cases h with
  | bare => exact List.length_pos_iff.2 hnil
  | root =>
      have hname : name ≠ [] := fun hname => hroot (by rw [hname])
      exact Nat.succ_lt_succ (List.length_pos_iff.2 hname)
  | inner =>
      rw [List.length_append, List.length_cons]
      omega

/-! ## The directory of a path in normal form -/

/-- What stands before a `/` in a canonical path is canonical. -/
theorem IsCanonical.before_slash (h : IsCanonical (front ++ '/' :: name)) (hne : front ≠ []) :
    IsCanonical front := by
  have hpieces : (front ++ '/' :: name).splitOn '/' = front.splitOn '/' ++ name.splitOn '/' :=
    List.splitOn_append_cons_self front name
  have habs : isAbsolute (front ++ '/' :: name) = isAbsolute front := by
    obtain ⟨c, cs, rfl⟩ := List.exists_cons_of_ne_nil hne
    rfl
  refine ⟨?_, ?_, ?_, ?_, ?_, ?_⟩
  · exact fun hback => h.no_backslash (List.mem_append_left _ hback)
  · exact fun htwo => h.no_double_slash (htwo.trans (List.prefix_append front _).isInfix)
  · intro hlast
    obtain ⟨init, rfl⟩ := List.getLast?_eq_some_iff.1 hlast
    refine absurd ⟨init, name, ?_⟩ h.no_double_slash
    simp only [List.append_assoc, List.cons_append, List.nil_append]
  · exact fun hhere => h.no_here (hpieces ▸ List.mem_append_left _ hhere)
  · exact fun hfront hup =>
      h.no_up_of_absolute (habs.trans hfront) (hpieces ▸ List.mem_append_left _ hup)
  · intro hfront
    have hups := h.ups_first (habs.trans hfront)
    rw [hpieces] at hups
    exact (List.pairwise_append.1 hups).1

theorem Cut.isCanonical (h : Cut path dir name) (hpath : IsCanonical path) : IsCanonical dir := by
  cases h with
  | bare => exact (NormalForm.start false).isCanonical_text
  | root => exact (NormalForm.start true).isCanonical_text
  | inner hne _ => exact hpath.before_slash hne

/-- A name behind the root leads there from the root. -/
theorem reach_cons_slash (hname : isAbsolute (unify name) = false) (base : List (List Char)) :
    reach ('/' :: name) base = reach name (reach ['/'] base) := by
  have hunify : unify ('/' :: name) = '/' :: unify name := rfl
  have habs : isAbsolute ('/' :: unify name) = true := rfl
  rw [reach, reach, hunify, hname, splitOn_cons_self, habs, if_pos rfl, if_neg Bool.false_ne_true]
  rfl

/-- The name, read from the directory, leads where the path does. -/
theorem Cut.reach_eq (h : Cut path dir name) (hname : isAbsolute (unify name) = false)
    (base : List (List Char)) : reach name (reach dir base) = reach path base := by
  cases h with
  | bare => rw [reach_nil]
  | root => exact (reach_cons_slash hname base).symm
  | inner hne _ => exact (reach_append hne hname base).symm

/-- The name, read from the directory, is the path. -/
theorem Cut.join_eq (h : Cut path dir name) (hpath : IsCanonical path) :
    join dir (here ++ '/' :: name) = path := by
  have hname : isAbsolute (unify name) = false := by
    rw [← Bool.not_eq_true, isAbsolute_unify_iff]
    rintro (hhead | hhead)
    · exact h.no_slash (List.mem_of_head? hhead)
    · exact hpath.no_backslash (h.subset (List.mem_of_head? hhead))
  rw [join_here_slash hname, ← normalize_join, ← normalize_eq_self_iff.2 hpath]
  refine normalize_eq_of_reach_eq fun base _ => ?_
  rw [reach_join, h.reach_eq hname]

/-! ## From one directory to the next -/

theorem isCanonical_parent (hpath : IsCanonical path) : IsCanonical (parent path) :=
  (cut_parent_fileName path).isCanonical hpath

theorem length_parent_lt (hnil : path ≠ []) (hroot : path ≠ ['/']) :
    (parent path).length < path.length :=
  (cut_parent_fileName path).length_lt hnil hroot

/-- The last directory that a path lies in: the root, or the empty path. -/
def outermost (path : List Char) : List Char :=
  if isAbsolute path then ['/'] else []

theorem exists_iterate_parent (path : List Char) : ∃ steps, parent^[steps] path = outermost path := by
  by_cases hnil : path = []
  · exact ⟨0, by rw [hnil]; rfl⟩
  by_cases hroot : path = ['/']
  · exact ⟨0, by rw [hroot]; rfl⟩
  have hshorter := length_parent_lt hnil hroot
  obtain ⟨steps, hsteps⟩ := exists_iterate_parent (parent path)
  refine ⟨steps + 1, ?_⟩
  rw [Function.iterate_succ_apply, hsteps, outermost, outermost,
    (cut_parent_fileName path).isAbsolute_eq]
termination_by path.length

end TextPath

open TextPath

namespace FileId

variable {id : FileId}

/-- The identifier of the directory that holds the file. -/
def directory (id : FileId) : FileId :=
  ofString id.parent

theorem IsCanonical.isCanonical_text (h : id.IsCanonical) :
    TextPath.IsCanonical id.text.toList := by
  have htext := congrArg (·.text.toList) h
  simp only [canonical, ofString, String.toList_ofList] at htext
  exact normalize_eq_self_iff.1 htext

/-- The directory is known by its own text, which is in normal form already. -/
theorem IsCanonical.toList_text_directory (h : id.IsCanonical) :
    id.directory.text.toList = TextPath.parent id.text.toList := by
  rw [directory, ofString, parent, String.toList_ofList, String.toList_ofList]
  exact normalize_eq_self_iff.2 (isCanonical_parent h.isCanonical_text)

theorem IsCanonical.toList_text_iterate (h : id.IsCanonical) (steps : Nat) :
    (directory^[steps] id).text.toList = TextPath.parent^[steps] id.text.toList := by
  induction steps generalizing id with
  | zero => rfl
  | succ steps ih =>
      have hdirectory : id.directory.IsCanonical := isCanonical_ofString id.parent
      rw [Function.iterate_succ_apply, Function.iterate_succ_apply, ih hdirectory,
        h.toList_text_directory]

/-- A canonical identifier is made of its directory and its file name. The directory is in normal
form, the name holds no `/`, and the name with `./` before it, read from the directory, is the
identifier again. The directory is a shorter text, unless the identifier is the root or empty; so
from one directory to the next one comes to the root, or to the empty text if the identifier does
not start at the root. -/
theorem directory_and_name (id : FileId) (h : id.IsCanonical) :
    normalize id.parent.toList = id.parent.toList ∧ '/' ∉ id.fileName.toList ∧
    join id.parent.toList ("./" ++ id.fileName).toList = id.text.toList ∧
    (id.text ≠ "/" → id.text ≠ "" → id.parent.length < id.text.length) ∧
    ∃ steps, (directory^[steps] id).text = if isAbsolute id.text.toList then "/" else "" := by
  have hcut : Cut id.text.toList id.parent.toList id.fileName.toList := by
    rw [parent, fileName, String.toList_ofList, String.toList_ofList]
    exact cut_parent_fileName _
  have hcanonical := h.isCanonical_text
  refine ⟨normalize_eq_self_iff.2 (hcut.isCanonical hcanonical), hcut.no_slash, ?_, ?_, ?_⟩
  · rw [String.toList_append]
    exact hcut.join_eq hcanonical
  · intro hroot hempty
    rw [← String.length_toList, ← String.length_toList]
    exact hcut.length_lt (fun hnil => hempty (String.toList_inj.1 hnil))
      fun hslash => hroot (String.toList_inj.1 hslash)
  · obtain ⟨steps, hsteps⟩ := exists_iterate_parent id.text.toList
    refine ⟨steps, String.toList_inj.1 ?_⟩
    rw [h.toList_text_iterate, hsteps, outermost]
    split
    · rfl
    · rfl

/-- The last `..` of a path that leads two directories up. -/
theorem directory_and_name_of_ups :
    let id : FileId := ⟨"../.."⟩
    id.IsCanonical ∧ id.parent = ".." ∧ id.fileName = ".." ∧
      join "..".toList ("./" ++ "..").toList = "../..".toList ∧
      id.text ≠ "/" ∧ id.text ≠ "" ∧ "..".length < "../..".length ∧
      ∃ steps, (directory^[steps] id).text = "" := by
  intro id
  have hid : id.IsCanonical := show id.canonical = id by decide +kernel
  have hparent : id.parent = ".." := by decide +kernel
  have hname : id.fileName = ".." := by decide +kernel
  have hroot : id.text ≠ "/" := by decide
  have hempty : id.text ≠ "" := by decide
  obtain ⟨-, -, hjoin, hshorter, hsteps⟩ := directory_and_name id hid
  rw [hparent, hname] at hjoin
  have hlength := hshorter hroot hempty
  have hrelative : isAbsolute id.text.toList = false := by decide +kernel
  rw [hparent] at hlength
  rw [hrelative] at hsteps
  exact ⟨hid, hparent, hname, hjoin, hroot, hempty, hlength, hsteps⟩

end FileId

end ModuleGraph
