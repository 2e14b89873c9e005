import ModuleGraph.Proofs.Splitting
import ModuleGraph.Proofs.Statement.Scan

/-!
# The names a statement can import

An imported name is never empty and has no comma in it (`isEntry_of_mem_importsOf`), so a list of
them can be written with commas between and taken apart again. For a braced list this is how the
names come about: they are the pieces between its commas, without the empty ones, and cutting off
the blanks at both ends of a piece brings no comma in. For a default import it is the grammar of
names, which have word characters only.
-/

namespace ModuleGraph

open Text

/-- Something that a list with commas in between can have as an entry. -/
structure IsEntry (name : String) : Prop where
  ne_nil : name.toList ≠ []
  no_comma : ',' ∉ name.toList

theorem mem_of_mem_trim {c : Char} {cs : List Char} (h : c ∈ trim cs) : c ∈ cs := by
  have hend := (List.dropWhile_sublist isBlank).mem (List.mem_reverse.1 h)
  exact (List.dropWhile_sublist isBlank).mem (List.mem_reverse.1 hend)

theorem Clause.isEntry_of_mem_listed {body : List Char} {name : String}
    (h : name ∈ (Clause.listed body).names) : IsEntry name := by
  obtain ⟨cs, hcs, rfl⟩ := List.mem_map.1 h
  obtain ⟨htrimmed, hne⟩ := List.mem_filter.1 hcs
  obtain ⟨piece, hpiece, rfl⟩ := List.mem_map.1 htrimmed
  refine ⟨?_, ?_⟩
  · rw [String.toList_ofList]
    intro hnil
    rw [hnil] at hne
    cases hne
  · rw [String.toList_ofList]
    intro hcomma
    exact not_mem_of_mem_splitOn hpiece (mem_of_mem_trim hcomma)

/-! ## Names of word characters -/

section IsName

variable {cs : List Char}

theorem IsName.not_mem (h : IsName cs) {c : Char} (hc : isWord c = false) : c ∉ cs :=
  not_mem_of_isWord h.2 hc

theorem IsName.stops (h : IsName cs) : Stops isBlank cs := by
  intro c hc
  exact isBlank_eq_false_of_isWord (h.2 c (List.mem_of_head? hc))

theorem IsName.stops_reverse (h : IsName cs) : Stops isBlank cs.reverse := by
  intro c hc
  exact isBlank_eq_false_of_isWord (h.2 c (List.mem_reverse.1 (List.mem_of_head? hc)))

theorem IsName.isEntry (h : IsName cs) : IsEntry (String.ofList cs) := by
  refine ⟨?_, ?_⟩
  · rw [String.toList_ofList]
    exact h.1
  · rw [String.toList_ofList]
    exact h.not_mem (by decide)

end IsName

/-! ## Every name -/

theorem Clause.isEntry_of_mem_names {clause : Clause} {part : List Char}
    (h : clause.Written part) {name : String} (hname : name ∈ clause.names) : IsEntry name := by
  have hwildcard : IsEntry wildcard := ⟨by decide, by decide⟩
  cases h with
  | listed => exact isEntry_of_mem_listed hname
  | everything => exact List.mem_singleton.1 hname ▸ hwildcard
  | renamed => exact List.mem_singleton.1 hname ▸ hwildcard
  | default hn => exact List.mem_singleton.1 hname ▸ hn.isEntry

namespace Statement

theorem isEntry_of_mem_names {s : Statement} {cs : List Char} (h : s.Written cs) {name : String}
    (hname : name ∈ s.clause.names) : IsEntry name := by
  cases h with
  | mk _ hclause => exact Clause.isEntry_of_mem_names hclause hname

end Statement

open Statement

/-- Whatever a text is, the names that are found in it can stand in a list. -/
theorem isEntry_of_mem_importsOf {text : String} {i : Import} (h : i ∈ importsOf text)
    {name : String} (hname : name ∈ i.names) : IsEntry name := by
  obtain ⟨o, ho, rfl⟩ := List.mem_map.1 h
  exact isEntry_of_mem_names (written_of_mem_scan ho) hname

end ModuleGraph
