import ModuleGraph.Proofs.Build.Assembly
import ModuleGraph.Proofs.Build.Imports
import ModuleGraph.Proofs.Digraph.Recovery
import ModuleGraph.Proofs.Statement.Names

/-!
# Imported names recovered from the rendering of a built graph

The label of an edge has the imported names, with a comma and a space between them. Of any graph
only the label can be told from its rendering: the names `a, b` and the two names `a` and `b` have
one label, and so have no name and the empty one. A built graph has no such names, as they all come
from import statements (`isEntry_of_mem_importsOf`), so of a built graph the names themselves are
told by taking each label apart (`parse?_render_dot`).
-/

namespace ModuleGraph

namespace Digraph

/-- The entries of a label: what stands between its commas, without the space behind a comma. An
empty label has none. -/
def entries (label : String) : List String :=
  match label.toList.splitOn ',' with
  | [] | [[]] => []
  | first :: rest => String.ofList first :: rest.map fun cs => String.ofList cs.tail

/-- The names on each edge. -/
def names (d : Digraph) : List (List String) :=
  d.edges.map fun (_, _, label) => entries label

/-- The space of a separator may be counted to the entry behind it. -/
theorem intercalate_comma_space (first : List Char) (rest : List (List Char)) :
    [',', ' '].intercalate (first :: rest) =
      [','].intercalate (first :: rest.map (' ' :: ·)) := by
  induction rest generalizing first with
  | nil => rfl
  | cons cs rest ih =>
      have hspace : [','].intercalate ((' ' :: cs) :: rest.map (' ' :: ·)) =
          ' ' :: [','].intercalate (cs :: rest.map (' ' :: ·)) := by
        cases rest with
        | nil => rfl
        | cons _ _ => rfl
      rw [List.intercalate_cons_cons, ih, List.map_cons, List.intercalate_cons_cons, hspace]
      simp only [List.append_assoc, List.cons_append, List.nil_append]

theorem splitOn_label {first : String} {rest : List String} (hfirst : IsEntry first)
    (hrest : ∀ name ∈ rest, IsEntry name) :
    (", ".intercalate (first :: rest)).toList.splitOn ',' =
      first.toList :: (rest.map String.toList).map (' ' :: ·) := by
  have hseparator : ", ".toList = [',', ' '] := by decide
  rw [String.toList_intercalate, hseparator, List.map_cons, intercalate_comma_space]
  refine List.splitOn_intercalate ',' ?_ (List.cons_ne_nil _ _)
  intro cs hcs
  rcases List.mem_cons.1 hcs with rfl | hcs
  · exact hfirst.no_comma
  · obtain ⟨_, hmem, rfl⟩ := List.mem_map.1 hcs
    obtain ⟨name, hname, rfl⟩ := List.mem_map.1 hmem
    intro hcomma
    rcases List.mem_cons.1 hcomma with heq | hcomma
    · exact absurd heq (by decide)
    · exact (hrest name hname).no_comma hcomma

/-- Names that can stand in a list are told by the label they make. -/
theorem entries_label {names : List String} (h : ∀ name ∈ names, IsEntry name) :
    entries (", ".intercalate names) = names := by
  cases names with
  | nil => rfl
  | cons first rest =>
      have hfirst := h first List.mem_cons_self
      have hsplit := splitOn_label hfirst fun name hname =>
        h name (List.mem_cons_of_mem first hname)
      have htails :
          (rest.map String.toList).map (fun cs => String.ofList (' ' :: cs).tail) = rest := by
        rw [List.map_map]
        exact (List.map_congr_left fun name _ => String.ofList_toList).trans (List.map_id rest)
      obtain ⟨c, cs, heq⟩ := List.exists_cons_of_ne_nil hfirst.ne_nil
      rw [entries, hsplit, heq]
      simp only [List.map_map, Function.comp_def] at htails ⊢
      rw [htails, ← heq, String.ofList_toList]

/-- The rendering of any graph as a digraph is read back as exactly its nodes and its edges, in
their order, whatever its texts are. Of a graph that a build returns, the names on each edge are
told by the label, too. -/
theorem parse?_render_dot :
    (∀ g : Graph, parse? (g.render .dot) = some
      { nodes := g.nodes.toList.map fun node => (node.id.text, node.label)
        edges := g.edges.map fun edge =>
          (edge.source.text, edge.target.text, ", ".intercalate edge.names) }) ∧
    ∀ (source : Source) (settings : Settings) (g : Graph), build source settings = .ok g →
      (parse? (g.render .dot)).map names = some (g.edges.map (·.names)) := by
  refine ⟨parse?_dot, ?_⟩
  intro source settings g hbuild
  have hentries : ∀ edge ∈ g.edges, entries (", ".intercalate edge.names) = edge.names := by
    intro edge hedge
    obtain ⟨_, _, i, -, hi, hnames, -⟩ := exists_import_of_build hbuild hedge
    rw [hnames]
    exact entries_label fun name hname => isEntry_of_mem_importsOf hi hname
  have hrender : parse? (g.render .dot) = parse? g.dot := rfl
  rw [hrender, parse?_dot, Option.map_some, names, List.map_map]
  exact congrArg some (List.map_congr_left hentries)

open Project in
/-- A file that imports two names of another one. -/
theorem parse?_render_dot_of_two :
    ∃ (source : Source) (g : Graph), build source Settings.default = .ok g ∧
      (parse? (g.render .dot)).map names = some [["f as g", "h"]] := by
  let x := Path.ofString "/p/x.ts"
  let y := Path.ofString "/p/y.ts"
  let i : Import := { names := ["f as g", "h"], specifier := "./y.ts", line := 1 }
  let edge : Edge := { source := ⟨"/p/x.ts"⟩, target := ⟨"/p/y.ts"⟩, names := i.names, line := 1 }
  let source : Source :=
    { paths := [x, y]
      read := fun path => .ok (if path = x then "import { f as g , h } from './y.ts'" else "") }
  let project := ofPaths source.paths Settings.default.extensions
  obtain ⟨g, hbuild⟩ : ∃ g, build source Settings.default = .ok g :=
    build_of_readable Settings.default (List.cons_ne_nil _ _) fun path _ => ⟨_, rfl⟩
  have hnames := parse?_render_dot.2 source Settings.default g hbuild
  obtain ⟨text, htext, rfl⟩ := eq_graph_of_build hbuild
  have hids : source.ids = [edge.source, edge.target] := by decide +kernel
  have hfiles : distinct ∅ source.paths = [(x, edge.source), (y, edge.target)] := by
    have hx : FileId.ofPath x = edge.source := by decide +kernel
    have hy : FileId.ofPath y = edge.target := by decide +kernel
    simp [source, distinct, hx, hy, edge]
  have hfirst : importsOf (text edge.source) = [i] := by
    have hread := htext (x, edge.source) (hfiles ▸ List.mem_cons_self)
    simp only [source, if_true, Except.ok.injEq] at hread
    rw [← hread]
    decide +kernel
  have hsecond : importsOf (text edge.target) = [] := by
    have hread := htext (y, edge.target) (hfiles ▸ List.mem_cons_of_mem _ List.mem_cons_self)
    have hne : y ≠ x := by decide +kernel
    simp only [source, if_neg hne, Except.ok.injEq] at hread
    rw [← hread]
    decide +kernel
  have hresolve : project.resolver.resolveFrom "./y.ts" edge.source = some edge.target := by
    have hat : Resolver.fileAt (TextPath.join edge.source.parent.toList "./y.ts".toList) =
        edge.target := by decide +kernel
    have hknown : Resolver.fileAt (TextPath.join edge.source.parent.toList "./y.ts".toList) ∈
        project.files.map (·.2) := by
      rw [hat, ids_ofPaths, hids]
      exact List.mem_cons_of_mem _ List.mem_cons_self
    rw [← hat]
    exact Resolver.resolve_eq_iff.2 (.itself hknown)
  have hedge : project.edge? edge.source i = some edge := by
    simp only [edge?, i, hresolve]
    rfl
  have hedges : ((distinct ∅ source.paths).flatMap fun file =>
      project.edgesOf file.2 (text file.2)) = [edge] := by
    rw [hfiles]
    simp only [List.flatMap_cons, List.flatMap_nil, Project.edgesOf, hfirst, hsecond,
      List.filterMap_cons, List.filterMap_nil, hedge, List.append_nil]
  have hjoins : ∀ e ∈ [edge], source.Joins e := by
    intro e he
    rw [List.mem_singleton.1 he, Source.Joins, hids]
    decide
  obtain ⟨-, -, hgraph⟩ := graph_ofPaths Settings.default.extensions hjoins
  refine ⟨source, _, hbuild, ?_⟩
  rw [hnames, hedges, hgraph]
  rfl

end Digraph

end ModuleGraph
