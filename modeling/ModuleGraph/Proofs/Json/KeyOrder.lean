import ModuleGraph.Proofs.Json.Layout

/-!
# Values up to the order of keys

The members of an object may stand in any order. `Same` relates two values that differ in nothing
else: strings and numbers are the same, arrays hold the same in the same order, and objects have the
same keys, with the same under each. To put the members of every object into the order of their keys
is to go over to such a value (`sorted_same`).

There is one relation for values, one for items, and one for members that are in one order already,
as `sorted` goes through them.
-/

namespace ModuleGraph.Json

mutual

/-- The values are the same but for the order of the members of their objects. -/
inductive Same : Json → Json → Prop
  | null : Same .null .null
  | bool {b : Bool} : Same (.bool b) (.bool b)
  | num {n : Number} : Same (.num n) (.num n)
  | str {s : Option String} : Same (.str s) (.str s)
  | arr {items items' : List Json} : SameItems items items' → Same (.arr items) (.arr items')
  | obj {members ordered members' : List (Option String × Json)} : members.Perm ordered →
      SameMembers ordered members' → Same (.obj members) (.obj members')

inductive SameItems : List Json → List Json → Prop
  | nil : SameItems [] []
  | cons {v v' : Json} {items items' : List Json} : Same v v' → SameItems items items' →
      SameItems (v :: items) (v' :: items')

/-- The members have the same keys in the same order, and the same under each. -/
inductive SameMembers : List (Option String × Json) → List (Option String × Json) → Prop
  | nil : SameMembers [] []
  | cons {key : Option String} {v v' : Json} {members members' : List (Option String × Json)} :
      Same v v' → SameMembers members members' →
      SameMembers ((key, v) :: members) ((key, v') :: members')

end

/-! ## Keys in their order -/

mutual

theorem sorted_same : ∀ v : Json, v.sorted.Same v
  | .null => .null
  | .bool _ => .bool
  | .num _ => .num
  | .str _ => .str
  | .arr items => by
      rw [sorted]
      exact .arr (sortedItems_same items)
  | .obj members => by
      rw [sorted]
      exact .obj (List.mergeSort_perm _ _) (sortedMembers_same members)

theorem sortedItems_same : ∀ items : List Json, SameItems (sortedItems items) items
  | [] => .nil
  | v :: items => .cons (sorted_same v) (sortedItems_same items)

theorem sortedMembers_same :
    ∀ members : List (Option String × Json), SameMembers (sortedMembers members) members
  | [] => .nil
  | (_, v) :: members => .cons (sorted_same v) (sortedMembers_same members)

end

theorem sortedItems_eq_map (items : List Json) : sortedItems items = items.map sorted := by
  induction items with
  | nil => rfl
  | cons v items ih => rw [sortedItems, List.map_cons, ih]

theorem sortedMembers_eq_map (members : List (Option String × Json)) :
    sortedMembers members = members.map fun m => (m.1, m.2.sorted) := by
  induction members with
  | nil => rfl
  | cons m members ih => rw [sortedMembers, List.map_cons, ih]

/-- The order of keys has no part in whether a value can be printed and read back. -/
theorem Proper.sorted {v : Json} (h : Proper v) : Proper v.sorted := by
  induction h with
  | null => exact .null
  | bool => exact .bool
  | num h => exact .num h
  | str => exact .str
  | arr _ ih =>
      rw [Json.sorted, sortedItems_eq_map]
      refine .arr fun v hv => ?_
      obtain ⟨w, hw, rfl⟩ := List.mem_map.1 hv
      exact ih w hw
  | obj _ ih =>
      rw [Json.sorted, sortedMembers_eq_map]
      refine .obj fun m hm => ?_
      obtain ⟨m', hm', rfl⟩ := List.mem_map.1 (List.mem_mergeSort.1 hm)
      exact ih m' hm'

end ModuleGraph.Json
