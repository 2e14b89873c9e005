import ModuleGraph.Path
import ModuleGraph.Proofs.Splitting

/-!
# Paths cut at their slashes

What stands after a slash adds its components to those of what stands before it, and a path that
starts with the slash has the root before them (`components_append`, `components_slash`). So only
the first segment of a path is read by rules of its own.
-/

namespace ModuleGraph.Path

/-- The components that are added by what stands after a slash. -/
def added (rest : List UInt8) : List Component :=
  (rest.splitOn slash).filterMap Component.ofSegment?

theorem added_nil : added [] = [] := rfl

theorem added_append (front rest : List UInt8) :
    added (front ++ slash :: rest) = added front ++ added rest := by
  rw [added, List.splitOn_append_cons_self, List.filterMap_append]
  rfl

theorem added_of_no_slash {segment : List UInt8} (h : slash ∉ segment) :
    added segment = (Component.ofSegment? segment).toList := by
  rw [added, List.splitOn_eq_singleton h]
  cases hc : Component.ofSegment? segment <;> simp [hc]

theorem components_slash (rest : List UInt8) :
    components ⟨slash :: rest⟩ = .root :: added rest := by
  simp only [components, segments, splitOn_cons_self, isAbsolute, List.head?_cons, beq_self_eq_true, if_true,
    added]

theorem components_append {front : List UInt8} (hne : front ≠ []) (rest : List UInt8) :
    components ⟨front ++ slash :: rest⟩ = components ⟨front⟩ ++ added rest := by
  have hroot : isAbsolute ⟨front ++ slash :: rest⟩ = isAbsolute ⟨front⟩ := by
    cases front with
    | nil => exact absurd rfl hne
    | cons b front => rfl
  obtain ⟨first, more, hfront⟩ := List.exists_cons_of_ne_nil (List.splitOn_ne_nil slash front)
  simp only [components, hroot, segments, List.splitOn_append_cons_self, hfront, List.cons_append,
    List.filterMap_append, added]
  split
  · rfl
  · split
    · rfl
    · rw [List.append_assoc]

end ModuleGraph.Path
