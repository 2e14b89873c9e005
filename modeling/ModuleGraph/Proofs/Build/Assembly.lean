import ModuleGraph.Proofs.Build.Outcome
import ModuleGraph.Proofs.Graph.Invariant
import ModuleGraph.Proofs.Resolver.Search

/-!
# What a built graph consists of

`IsAssembly` says what the graph of a source is, without a word on how it comes about: a node for
each file in the order of the list, and the edges of the files in the same order, where the edges
of a file are those of its imports that lead to another file. Every file is known to every import,
listed before or after it.

A build that succeeds gives this graph. The point where it could give less is the last one: a graph
refuses an edge whose end it does not know, and nothing is said when it does. An import can only
lead to a file of the list (`Resolver.Search.mem`), and all of these have their nodes before the
first edge is entered, so no edge is refused (`addEdge_graph_ofPaths`).
-/

namespace ModuleGraph

open Project

/-- The identifiers of the listed files, each where it first occurs. -/
def Source.ids (source : Source) : List FileId :=
  (source.paths.map FileId.ofPath).eraseDups

/-- The other file that an import in the file `id` leads to. -/
def Source.leadsTo? (source : Source) (settings : Settings) (id : FileId) (i : Import) :
    Option FileId :=
  ((Resolver.ofFiles source.ids settings.extensions).resolveFrom i.specifier id).filter (· ≠ id)

/-- The edges of a file that reads `text`, one for each import that leads to another file. -/
def Source.edgesOf (source : Source) (settings : Settings) (id : FileId) (text : String) :
    List Edge :=
  (importsOf text).filterMap fun i => (source.leadsTo? settings id i).map fun target =>
    { source := id, target, kind := .imports, names := i.names, line := i.line }

/-- `graph` is the import graph of the files of `source`. -/
structure IsAssembly (source : Source) (settings : Settings) (graph : Graph) : Prop where
  nodes : graph.nodes.toList =
    source.ids.map fun id => { id, label := id.fileName, kind := .file }
  /-- The text of a file is what is read under the first of its paths. -/
  edges : ∃ text : FileId → String,
    (∀ id ∈ source.ids, ∃ path, FirstListed source.paths path ∧ FileId.ofPath path = id ∧
      source.read path = .ok (text id)) ∧
    graph.edges = source.ids.flatMap fun id => source.edgesOf settings id (text id)
  /-- No edge is refused, wherever it comes among the edges that are gathered. -/
  taken : ∃ edges,
    gather ((ofPaths source.paths settings.extensions).files.map
      ((ofPaths source.paths settings.extensions).slot source.read)) = .ok edges ∧
    graph.edges = edges ∧
    ∀ before edge after, edges = before ++ edge :: after →
      (((ofPaths source.paths settings.extensions).graph before).addEdge edge).2 =
        some before.length

/-! ## An import leads to a listed file -/

theorem Resolver.Search.mem {files : List FileId} {extensions : List String} {path : List Char}
    {id : FileId} (h : Resolver.Search files extensions path (some id)) : id ∈ files := by
  cases h with
  | itself hin => exact hin
  | stem _ hpref => exact hpref.mem
  | extension _ _ hfirst =>
      have hin := List.find?_some hfirst
      exact of_decide_eq_true hin

theorem Source.mem_ids_of_leadsTo? {source : Source} {settings : Settings} {id target : FileId}
    {i : Import} (h : source.leadsTo? settings id i = some target) :
    target ∈ source.ids ∧ id ≠ target := by
  obtain ⟨hresolve, hne⟩ := Option.filter_eq_some_iff.1 h
  refine ⟨(Resolver.resolve_eq_iff.1 hresolve).mem, ?_⟩
  exact fun heq => of_decide_eq_true hne heq.symm

theorem Source.ends_of_mem_edgesOf {source : Source} {settings : Settings} {id : FileId}
    {text : String} {edge : Edge} (h : edge ∈ source.edgesOf settings id text) :
    edge.source = id ∧ edge.target ∈ source.ids ∧ edge.source ≠ edge.target := by
  obtain ⟨i, -, hi⟩ := List.mem_filterMap.1 h
  obtain ⟨target, htarget, rfl⟩ := Option.map_eq_some_iff.1 hi
  obtain ⟨hmem, hne⟩ := mem_ids_of_leadsTo? htarget
  exact ⟨rfl, hmem, hne⟩

/-! ## The project of a source -/

theorem ids_ofPaths (source : Source) (extensions : List String) :
    (ofPaths source.paths extensions).files.map (·.2) = source.ids :=
  ids_distinct source.paths

theorem edgesOf_ofPaths (source : Source) (settings : Settings) (id : FileId) (text : String) :
    (ofPaths source.paths settings.extensions).edgesOf id text =
      source.edgesOf settings id text := by
  have hresolver : (ofPaths source.paths settings.extensions).resolver =
      Resolver.ofFiles source.ids settings.extensions := by
    rw [← ids_ofPaths source settings.extensions]
    rfl
  simp only [Project.edgesOf, Source.edgesOf]
  refine congrArg (List.filterMap · (importsOf text)) (funext fun i => ?_)
  simp only [edge?, Source.leadsTo?, hresolver]
  cases (Resolver.ofFiles source.ids settings.extensions).resolveFrom i.specifier id with
  | none => rfl
  | some target =>
      by_cases heq : target = id
      · simp [heq, Option.filter]
      · simp [heq, Option.filter]

/-- An edge between two different files of the source. -/
def Source.Joins (source : Source) (edge : Edge) : Prop :=
  edge.source ≠ edge.target ∧ edge.source ∈ source.ids ∧ edge.target ∈ source.ids

theorem knows_of_nodes {graph : Graph} {ids : List FileId}
    (hnodes : graph.nodes.toList = ids.map Node.ofFile) {id : FileId} (hid : id ∈ ids) :
    graph.Knows id := by
  refine ⟨Node.ofFile id, Array.mem_toList_iff.1 ?_, rfl⟩
  rw [hnodes]
  exact List.mem_map_of_mem hid

/-- Before the first edge there is a node for every file. -/
theorem graph_nil_ofPaths (source : Source) (extensions : List String) :
    let graph := (ofPaths source.paths extensions).graph []
    graph.Consistent ∧ graph.nodes.toList = source.ids.map Node.ofFile ∧ graph.edges = [] := by
  have hids : (source.ids.map Node.ofFile).map (·.id) = source.ids := by
    rw [List.map_map]
    exact List.map_id _
  have hdiff : ((source.ids.map Node.ofFile).map (·.id)).Nodup := by
    rw [hids, ← ids_ofPaths source extensions]
    exact nodup_ids_distinct ∅ source.paths
  have hnew : ∀ node ∈ source.ids.map Node.ofFile, ¬ Graph.empty.Knows node.id := by
    rintro node - ⟨known, hmem, -⟩
    simp [Graph.empty] at hmem
  have hfold : (source.ids.map Node.ofFile).foldl (fun g node => (g.addNode node).1) Graph.empty =
      (ofPaths source.paths extensions).graph [] := by
    rw [← ids_ofPaths source extensions, List.map_map, List.foldl_map]
    rfl
  obtain ⟨hcons, hnodes, harcs⟩ := Graph.nodes_foldl_addNode Graph.consistent_empty hdiff hnew
  rw [hfold] at hcons hnodes harcs
  refine ⟨hcons, hnodes, ?_⟩
  rw [Graph.edges, harcs]
  rfl

theorem graph_ofPaths {source : Source} (extensions : List String) {edges : List Edge}
    (h : ∀ edge ∈ edges, source.Joins edge) :
    let graph := (ofPaths source.paths extensions).graph edges
    graph.Consistent ∧ graph.nodes.toList = source.ids.map Node.ofFile ∧ graph.edges = edges := by
  obtain ⟨hcons, hnodes, hedges⟩ := graph_nil_ofPaths source extensions
  have hends : ∀ edge ∈ edges, edge.source ≠ edge.target ∧
      ((ofPaths source.paths extensions).graph []).Knows edge.source ∧
      ((ofPaths source.paths extensions).graph []).Knows edge.target := by
    intro edge hedge
    obtain ⟨hne, hsource, htarget⟩ := h edge hedge
    exact ⟨hne, knows_of_nodes hnodes hsource, knows_of_nodes hnodes htarget⟩
  obtain ⟨hcons', hnodes', hedges'⟩ := Graph.edges_foldl_addEdge hcons hends
  rw [hedges, List.nil_append] at hedges'
  exact ⟨hcons', (congrArg Array.toList hnodes').trans hnodes, hedges'⟩

/-- The next edge is taken too, and stands behind those before it. -/
theorem addEdge_graph_ofPaths {source : Source} (extensions : List String) {before : List Edge}
    {edge : Edge} (hbefore : ∀ e ∈ before, source.Joins e) (hedge : source.Joins edge) :
    (((ofPaths source.paths extensions).graph before).addEdge edge).2 = some before.length := by
  obtain ⟨hcons, hnodes, hedges⟩ := graph_ofPaths extensions hbefore
  obtain ⟨s, hs⟩ := hcons.exists_index (knows_of_nodes hnodes hedge.2.1)
  obtain ⟨t, ht⟩ := hcons.exists_index (knows_of_nodes hnodes hedge.2.2)
  rw [Graph.addEdge_of_known hedge.1 hs ht, ← Graph.length_edges, hedges]

/-! ## The graph of a build -/

/-- A build that succeeds gives the import graph of the listed files, and no edge that is gathered
from them is refused on the way. -/
theorem build_isAssembly {source : Source} {settings : Settings} {graph : Graph}
    (h : build source settings = .ok graph) : IsAssembly source settings graph := by
  obtain ⟨hne, hok⟩ := exists_build_eq_ok_iff.1 ⟨graph, h⟩
  obtain ⟨text, htext⟩ := hok.exists_reads
  have hgather := htext.gather (ofPaths source.paths settings.extensions)
  rw [build_of_paths settings hne, hgather] at h
  have hgathered : (distinct ∅ source.paths).flatMap (fun file =>
      (ofPaths source.paths settings.extensions).edgesOf file.2 (text file.2)) =
      source.ids.flatMap fun id => source.edgesOf settings id (text id) := by
    rw [← ids_ofPaths source settings.extensions, List.flatMap_map]
    simp only [edgesOf_ofPaths]
    rfl
  have hjoins : ∀ edge ∈ source.ids.flatMap (fun id => source.edgesOf settings id (text id)),
      source.Joins edge := by
    intro edge hedge
    obtain ⟨id, hid, hmem⟩ := List.mem_flatMap.1 hedge
    obtain ⟨hsource, htarget, hdiff⟩ := Source.ends_of_mem_edgesOf hmem
    exact ⟨hdiff, hsource.symm ▸ hid, htarget⟩
  rw [hgathered] at h hgather
  cases h
  obtain ⟨-, hnodes, hedges⟩ := graph_ofPaths settings.extensions hjoins
  refine ⟨hnodes, ⟨text, ?_, hedges⟩, ⟨_, hgather, hedges, ?_⟩⟩
  · intro id hid
    rw [← ids_ofPaths source settings.extensions] at hid
    obtain ⟨⟨path, _⟩, hfile, rfl⟩ := List.mem_map.1 hid
    obtain ⟨hpath, hofPath⟩ := mem_distinct_iff.1 hfile
    exact ⟨path, hpath, hofPath, htext _ hfile⟩
  · intro before edge after hsplit
    refine addEdge_graph_ofPaths settings.extensions ?_ ?_
    · intro e he
      exact hjoins e (hsplit ▸ List.mem_append_left _ he)
    · exact hjoins edge (hsplit ▸ List.mem_append_right _ List.mem_cons_self)

/-- Two files, the second of them listed twice, each of which imports the other. -/
theorem build_isAssembly_of_two :
    ∃ (source : Source) (graph : Graph), build source Settings.default = .ok graph ∧
      IsAssembly source Settings.default graph ∧
      graph.nodes.toList.map (·.label) = ["x.ts", "y.ts"] := by
  let source : Source :=
    { paths := [Path.ofString "/p/x.ts", Path.ofString "/p/y.ts", Path.ofString "/p//y.ts"]
      read := fun path => .ok
        (if path = Path.ofString "/p/x.ts" then "import { f } from './y'" else "import x from './x'") }
  obtain ⟨graph, hgraph⟩ : ∃ graph, build source Settings.default = .ok graph :=
    build_of_readable Settings.default (List.cons_ne_nil _ _) fun path _ => ⟨_, rfl⟩
  have hassembly := build_isAssembly hgraph
  refine ⟨source, graph, hgraph, hassembly, ?_⟩
  rw [hassembly.nodes]
  decide +kernel

end ModuleGraph
