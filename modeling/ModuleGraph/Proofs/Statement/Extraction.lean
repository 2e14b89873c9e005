import ModuleGraph.Proofs.Statement.ClauseNames

/-!
# The imports of a text are what its statements say

There is one way to find the statements of a text from left to right (`IsScan`). What each of them
says is told from its text: `Says` takes it apart by the grammar, and has the names from the part
that is the clause and the path from between the quotes. A statement says one thing only, for its
text is a spelling in one way and a clause has its names in one way (`says_iff`). The imports of the
text are what the statements say, one for each, in their order (`importsOf_unique_scan`).
-/

namespace ModuleGraph

open Text

namespace Statement

/-- A text is a statement whose clause has the given names, and which has the given path. -/
inductive Says : List Char → List String → String → Prop
  | mk {clause : Clause} {names : List String} {path part quoted b₁ b₂ b₃ : List Char} :
      Blanks b₁ → clause.Written part → ClauseNames part names → Blanks b₂ → Blanks b₃ →
      b₃ ≠ [] → Quoted path quoted →
      Says (importWord ++ (b₁ ++ (part ++ (b₂ ++ (fromWord ++ (b₃ ++ quoted)))))) names
        (String.ofList path)

variable {s : Statement} {cs : List Char} {names : List String} {specifier : String}

theorem says_of_written (h : s.Written cs) : Says cs s.clause.names (String.ofList s.path) := by
  cases h with
  | mk hb₁ hpart hb₂ hb₃ hne hquoted =>
      exact .mk hb₁ hpart (clauseNames_of_written hpart) hb₂ hb₃ hne hquoted

/-- What a statement says is told by its text in one way. -/
theorem says_iff (h : s.Written cs) : Says cs names specifier ↔
    names = s.clause.names ∧ specifier = String.ofList s.path := by
  constructor
  · rintro ⟨hb₁, hpart, hnames, hb₂, hb₃, hne, hquoted⟩
    have hother := Written.mk hb₁ hpart hb₂ hb₃ hne hquoted
    obtain ⟨rfl, -⟩ := written_unique h hother (List.prefix_refl _) (List.prefix_refl _)
    refine ⟨?_, rfl⟩
    rw [hnames.eq_namesIn, ← (clauseNames_of_written hpart).eq_namesIn]
  · rintro ⟨rfl, rfl⟩
    exact says_of_written h

end Statement

open Statement

/-- There is one way to find the statements of a text from left to right. The imports of the text
are one for each of them, in their order, with the names and the path that the text of the statement
says. -/
theorem importsOf_unique_scan (text : String) : ∃ found : List Occurrence,
    (∀ other, IsScan 0 text.toList other ↔ other = found) ∧
    List.Forall₂ (fun o i => ∀ names specifier,
      Says o.written names specifier ↔ names = i.names ∧ specifier = i.specifier)
      found (importsOf text) := by
  refine ⟨scan 0 text.toList, fun other => isScan_iff, ?_⟩
  show List.Forall₂ _ _ ((scan 0 text.toList).map (Occurrence.toImport text))
  rw [List.forall₂_map_right_iff, List.forall₂_same]
  intro o ho names specifier
  exact says_iff (written_of_mem_scan ho)

/-- A list behind a statement that is no import, and that begins like one. -/
theorem importsOf_unique_scan_of_list :
    let text := "import './x'\nimport {a, b as c ,} from \"./y\""
    ∃ o, IsScan 0 text.toList [o] ∧ Says o.written ["a", "b as c"] "./y" := by
  intro text
  obtain ⟨found, hscan, htold⟩ := importsOf_unique_scan text
  have himports : importsOf text = [⟨["a", "b as c"], "./y", 2⟩] := by decide +kernel
  rw [himports] at htold
  obtain ⟨o, rest, ho, hrest, rfl⟩ := List.forall₂_cons_right_iff.1 htold
  cases hrest
  exact ⟨o, (hscan [o]).2 rfl, (ho _ _).2 ⟨rfl, rfl⟩⟩

end ModuleGraph
