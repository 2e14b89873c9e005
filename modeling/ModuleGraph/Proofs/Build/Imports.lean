import ModuleGraph.Proofs.Build.Outcome
import ModuleGraph.Proofs.Graph.History

/-!
# Where the edges of a built graph come from

A build enters nodes and edges into an empty graph (`graph_eq_after`). Each edge of the graph that
it returns came with such a call, and is an import of the text of some file: it has the names and
the line of that import (`exists_import_of_build`). What is true of all imports of all texts is
thereby true of all edges.
-/

namespace ModuleGraph

open Project

/-- A project's graph is what its nodes and then its edges make of the empty one. -/
theorem Project.graph_eq_after (project : Project) (edges : List Edge) :
    project.graph edges = Graph.after
      (project.files.map (fun file => .node (Node.ofFile file.2)) ++ edges.map .edge) := by
  rw [Graph.after_append, Graph.after, List.foldl_map, List.foldl_map]
  rfl

/-- The edge of an import has its names and its line. -/
theorem Project.of_edge?_eq_some {project : Project} {id : FileId} {i : Import} {edge : Edge}
    (h : project.edge? id i = some edge) : edge.names = i.names ∧ edge.line = i.line := by
  unfold edge? at h
  split at h
  · cases h
  · split at h
    · cases h
    · cases h
      exact ⟨rfl, rfl⟩

variable {source : Source} {settings : Settings} {graph : Graph}

/-- The graph that a build returns is the project's, with the edges of all texts. -/
theorem eq_graph_of_build (h : build source settings = .ok graph) : ∃ text : FileId → String,
    Reads source.read (distinct ∅ source.paths) text ∧
    graph = (ofPaths source.paths settings.extensions).graph
      ((distinct ∅ source.paths).flatMap fun file =>
        (ofPaths source.paths settings.extensions).edgesOf file.2 (text file.2)) := by
  obtain ⟨hne, hok⟩ := exists_build_eq_ok_iff.1 ⟨graph, h⟩
  obtain ⟨text, htext⟩ := hok.exists_reads
  rw [build_of_paths settings hne, htext.gather] at h
  cases h
  exact ⟨text, htext, rfl⟩

theorem exists_import_of_build (h : build source settings = .ok graph) {edge : Edge}
    (hedge : edge ∈ graph.edges) : ∃ path text i, source.read path = .ok text ∧
      i ∈ importsOf text ∧ edge.names = i.names ∧ edge.line = i.line := by
  obtain ⟨text, htext, rfl⟩ := eq_graph_of_build h
  rw [graph_eq_after] at hedge
  rcases List.mem_append.1 (Graph.mem_edges_after hedge) with hcall | hcall
  · obtain ⟨_, -, hnode⟩ := List.mem_map.1 hcall
    cases hnode
  · obtain ⟨_, hmem, hcall⟩ := List.mem_map.1 hcall
    cases hcall
    obtain ⟨file, hfile, hmem⟩ := List.mem_flatMap.1 hmem
    obtain ⟨i, hi, hsome⟩ := List.mem_filterMap.1 hmem
    obtain ⟨hnames, hline⟩ := of_edge?_eq_some hsome
    exact ⟨file.1, text file.2, i, htext file hfile, hi, hnames, hline⟩

end ModuleGraph
