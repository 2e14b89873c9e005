import ModuleGraph.Serialized

/-!
# Records read back

A record is written with all its parts, each once, so `parts?` gives back the parts as they are
(`parts?_record`); a list is read back item by item (`mapM_map_eq_some`). What is left for a node
and an edge is that each part is read as it was written. The line of an edge has to be one that
sixty-four bits hold; a larger number would be written all the same, and refused.
-/

namespace ModuleGraph

namespace Json

/-- Items that are read as what they were made from, are read together. -/
theorem mapM_map_eq_some {α β : Type} {write : α → β} {read : β → Option α} {items : List α}
    (h : ∀ a ∈ items, read (write a) = some a) : (items.map write).mapM read = some items := by
  induction items with
  | nil => rfl
  | cons a items ih =>
      have hrest := ih fun b hb => h b (List.mem_cons_of_mem a hb)
      rw [List.map_cons, List.mapM_cons, h a List.mem_cons_self, hrest]
      rfl

/-- A record with known and different keys has the parts it was written with. -/
theorem parts?_record {names : List String} {members : List (String × Json)}
    (hnames : ∀ m ∈ members, m.1 ∈ names) (hdiff : (members.map (·.1)).Nodup) :
    parts? names (record members) = some members := by
  have hkeys : (members.map fun m => (some m.1, m.2)).mapM (fun m => m.1.map (·, m.2)) =
      some members :=
    mapM_map_eq_some fun _ _ => rfl
  have hknown : members.filter (names.contains ·.1) = members :=
    List.filter_eq_self.2 fun m hm => List.contains_iff_mem.2 (hnames m hm)
  simp only [parts?, record, Option.bind_eq_bind]
  rw [hkeys, Option.bind_some, hknown, if_pos hdiff]

theorem texts?_ofString (texts : List String) :
    texts? (.arr (texts.map ofString)) = some texts :=
  mapM_map_eq_some fun _ _ => rfl

theorem nat?_ofNat {n : Nat} (h : n < UInt64.size) : nat? (.ofNat n) = some n := by
  rw [ofNat, nat?, if_pos h]

end Json

open Json

theorem NodeKind.ofJson?_toJson (kind : NodeKind) : ofJson? kind.toJson = some kind := by
  cases kind with
  | file => rfl

theorem EdgeKind.ofJson?_toJson (kind : EdgeKind) : ofJson? kind.toJson = some kind := by
  cases kind with
  | imports => rfl
  | exports => rfl

theorem Node.ofJson?_toJson (node : Node) : ofJson? node.toJson = some node := by
  have hparts := @parts?_record ["id", "label", "type"]
    [("id", node.id.toJson), ("label", .ofString node.label), ("type", node.kind.toJson)]
    (by simp) (by simp)
  rw [toJson, ofJson?, hparts]
  simp only [required?, optional?, List.lookup_cons, String.reduceBEq, Option.bind_eq_bind,
    Option.bind_some, NodeKind.ofJson?_toJson]
  rfl

theorem Edge.ofJson?_toJson {edge : Edge} (h : edge.line < UInt64.size) :
    ofJson? edge.toJson = some edge := by
  have hparts := @parts?_record ["source", "target", "kind", "importedNames", "lineNumber"]
    [("source", edge.source.toJson), ("target", edge.target.toJson), ("kind", edge.kind.toJson),
      ("importedNames", .arr (edge.names.map ofString)), ("lineNumber", .ofNat edge.line)]
    (by simp) (by simp)
  rw [toJson, ofJson?, hparts]
  simp only [required?, List.lookup_cons, String.reduceBEq, Option.bind_eq_bind, Option.bind_some,
    EdgeKind.ofJson?_toJson, texts?_ofString, nat?_ofNat h]
  rfl

end ModuleGraph
