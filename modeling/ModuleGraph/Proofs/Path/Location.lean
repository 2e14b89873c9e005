import Mathlib.Data.List.Basic
import ModuleGraph.Proofs.Disk.Tree

/-!
# The order of paths

Paths are compared component by component, so what is in a directory comes before a file whose name
only starts like the directory's: `a/b` before `a.ts`, though `.` is a smaller byte than `/`. The
components of a location's path are the root and the names of the location (`components_path`), so
the order of locations, name by name, is the order of their paths.
-/

namespace ModuleGraph

namespace Path

/-- A component as bytes, which are in order as components are: the root, `.`, `..`, names. -/
def Component.key : Component → List UInt8
  | .root => [0]
  | .here => [1]
  | .up => [2]
  | .name bytes => 3 :: bytes

/-- `p` comes before `q`, component by component. -/
def Precedes (p q : Path) : Prop :=
  p.components.map Component.key < q.components.map Component.key

theorem not_precedes_of_same {p q : Path} (h : p.same q = true) : ¬ p.Precedes q := by
  rw [Precedes, same_iff.1 h]
  exact List.lt_irrefl _

theorem Component.ofSegment?_of_isProper {name : FileName} (h : name.IsProper) :
    Component.ofSegment? name = some (.name name) := by
  rw [ofSegment?, if_neg (not_or.2 ⟨h.ne_nil, h.ne_dot⟩), if_neg h.ne_dots]

end Path

namespace Location

open ModuleGraph.Path

variable {place place' : Location}

theorem segments_path (h : ∀ name ∈ place, FileName.IsProper name) (hne : place ≠ []) :
    place.path.segments = [] :: place := by
  have hsegments : place.path.segments = [] :: (List.intercalate [slash] place).splitOn slash :=
    List.splitOn_append_cons_self (a := slash) [] _
  rw [hsegments, List.splitOn_intercalate slash (fun name hname => (h name hname).no_slash) hne]

theorem components_path (h : ∀ name ∈ place, FileName.IsProper name) :
    place.path.components = .root :: place.map .name := by
  by_cases hne : place = []
  · rw [hne]
    rfl
  · have hroot : place.path.isAbsolute = true := rfl
    have hnames : place.filterMap Component.ofSegment? = place.map .name :=
      List.filterMap_eq_map_iff_forall_eq_some.2 fun name hname =>
        Component.ofSegment?_of_isProper (h name hname)
    simp only [components, segments_path h hne, if_pos hroot, hnames]

/-- The order of locations is the order of their paths. -/
theorem precedes_path (h : ∀ name ∈ place, FileName.IsProper name)
    (h' : ∀ name ∈ place', FileName.IsProper name) (hlt : place < place') :
    place.path.Precedes place'.path := by
  have hkeys : ∀ location : Location,
      (Component.root :: location.map Component.name).map Component.key =
        [0] :: location.map (3 :: ·) := by
    intro location
    rw [List.map_cons, List.map_map]
    rfl
  rw [Precedes, components_path h, components_path h', hkeys, hkeys, List.cons_lt_cons_iff]
  refine Or.inr ⟨rfl, List.map_lt ?_ hlt⟩
  intro name name' hname
  exact List.cons_lt_cons_iff.2 (Or.inr ⟨rfl, hname⟩)

end Location

end ModuleGraph
