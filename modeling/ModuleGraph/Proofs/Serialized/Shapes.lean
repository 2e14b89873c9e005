import ModuleGraph.Proofs.Serialized.KeyOrder

/-!
# Records are read in every shape

A record is written as an object with its parts in a fixed order. It may be written by others in
more ways, and is read from all of them: as an object whose members stand in any order, with members
of any other keys and any values between them, and as the array of the parts in their order
(`Shows`). How the value is spelled does not matter either: with any blanks, and with any escapes in
its texts and keys (`Spells`).

All that a reader asks of the parts is which value has a name. Members of other keys are dropped
first; what is left is the parts in some order, and as their names are different the order does not
show (`exists_parts?_of_shows`). So for each kind of record it is left to see that every part is
read as it was written (`Node.ofJson?_of_shows`, `Edge.ofJson?_of_shows`,
`Settings.ofJson?_of_shows`).
-/

namespace ModuleGraph

namespace Json

variable {names : List String} {parts : List (String × Json)} {v : Json}

/-- The values that show a record with these parts. An object holds each of them once, in any order,
and with them any members under keys that no part has. A key that spells half of a surrogate pair is
no text, so it is not among these. -/
inductive Shows (parts : List (String × Json)) : Json → Prop
  | object {members others : List (Option String × Json)} :
      members.Perm (parts.map (fun part => (some part.1, part.2)) ++ others) →
      (∀ other ∈ others, ∃ key, other.1 = some key ∧ key ∉ parts.map (·.1)) →
      Shows parts (.obj members)
  | array : Shows parts (.arr (parts.map (·.2)))

/-- The texts that spell a value, with blanks around it. -/
inductive Spells (v : Json) : String → Prop
  | mk {b₁ cs b₂ : List Char} : Blanks b₁ → Written (.value v) cs → Blanks b₂ →
      Spells v (String.ofList (b₁ ++ (cs ++ b₂)))

theorem Spells.parse?_eq {text : String} (h : Spells v text) : parse? text = some v := by
  cases h with
  | mk hb₁ hv hb₂ => exact parse?_of_written hb₁ hv hb₂

theorem spells_compact (h : Proper v) : Spells v v.compact := by
  have hspells := Spells.mk blanks_nil (written_compactChars h) blanks_nil
  rwa [List.nil_append, List.append_nil] at hspells

theorem shows_record (parts : List (String × Json)) : Shows parts (record parts) := by
  have hperm : (parts.map fun part => (some part.1, part.2)).Perm
      (parts.map (fun part => (some part.1, part.2)) ++ []) := by
    rw [List.append_nil]
  exact .object hperm fun _ h => absurd h List.not_mem_nil

theorem proper_values (h : Proper (record parts)) : Proper (.arr (parts.map (·.2))) := by
  refine .arr fun v hv => ?_
  obtain ⟨part, hpart, rfl⟩ := List.mem_map.1 hv
  cases h with
  | obj hparts => exact hparts (some part.1, part.2) (List.mem_map_of_mem hpart)

/-! ## The parts that are found -/

theorem known_append (names : List String) (members others : List (Option String × Json)) :
    known names (members ++ others) = known names members ++ known names others := by
  rw [known, keyed, List.filterMap_append, List.filter_append]
  rfl

theorem known_record (parts : List (String × Json)) :
    known (parts.map (·.1)) (parts.map fun part => (some part.1, part.2)) = parts := by
  have hkeyed : keyed (parts.map fun part => (some part.1, part.2)) = parts := by
    rw [keyed, List.filterMap_map]
    exact List.filterMap_some
  rw [known, hkeyed]
  exact List.filter_eq_self.2 fun part hpart =>
    List.contains_iff_mem.2 (List.mem_map_of_mem hpart)

/-- Members of other keys are dropped. -/
theorem known_eq_nil {others : List (Option String × Json)}
    (h : ∀ other ∈ others, ∃ key, other.1 = some key ∧ key ∉ names) : known names others = [] := by
  refine List.filter_eq_nil_iff.2 fun part hpart hname => ?_
  obtain ⟨other, hother, hpart⟩ := List.mem_filterMap.1 hpart
  obtain ⟨key, hkey, hnot⟩ := h other hother
  rw [hkey, Option.map_some, Option.some.injEq] at hpart
  rw [← hpart] at hname
  exact hnot (List.contains_iff_mem.1 hname)

/-- What shows a record has its parts, in some order. -/
theorem exists_parts?_of_shows (hnames : parts.map (·.1) = names) (hdiff : names.Nodup)
    (h : Shows parts v) :
    ∃ found, parts? names v = some found ∧ ∀ name, found.lookup name = parts.lookup name := by
  subst hnames
  cases h with
  | @object members others hperm hothers =>
      have hknown : (known (parts.map (·.1)) members).Perm parts := by
        have hall := known_perm hperm (parts.map (·.1))
        rwa [known_append, known_record, known_eq_nil hothers, List.append_nil] at hall
      have hkeys : ∀ m ∈ members, m.1.isSome = true := by
        intro m hm
        rcases List.mem_append.1 (hperm.subset hm) with hm | hm
        · obtain ⟨part, -, rfl⟩ := List.mem_map.1 hm
          rfl
        · obtain ⟨key, hkey, -⟩ := hothers m hm
          rw [hkey]
          rfl
      have hfound : ((known (parts.map (·.1)) members).map (·.1)).Nodup :=
        (hknown.map _).nodup_iff.2 hdiff
      exact ⟨_, parts?_of_tells ⟨hkeys, hfound⟩, Association.lookup_eq_of_perm hfound hknown⟩
  | array =>
      have hzip : (parts.map (·.1)).zip (parts.map (·.2)) = parts := by
        rw [List.zip_map']
        exact List.map_id _
      refine ⟨parts, ?_, fun _ => rfl⟩
      rw [parts?, List.length_map, List.length_map, if_pos (Nat.le_refl _), hzip]

/-- `a` is read from the value that it is written as, printed without blanks, and from every
spelling of every value that shows these parts. -/
def ReadBack {α : Type} (read : Json → Option α) (written : Json) (parts : List (String × Json))
    (a : α) : Prop :=
  (parse? written.compact).bind read = some a ∧
    ∀ shown text, Shows parts shown → Spells shown text → (parse? text).bind read = some a

theorem readBack_of_shows {α : Type} {read : Json → Option α} {a : α}
    (h : ∀ shown, Shows parts shown → read shown = some a) (hproper : Proper (record parts)) :
    ReadBack read (record parts) parts a := by
  have hshown : ∀ shown text, Shows parts shown → Spells shown text →
      (parse? text).bind read = some a := by
    intro shown text hshows hspells
    rw [hspells.parse?_eq]
    exact h shown hshows
  exact ⟨hshown _ _ (shows_record parts) (spells_compact hproper), hshown⟩

end Json

open Json

/-! ## Nodes, edges, settings -/

def Node.parts (node : Node) : List (String × Json) :=
  [("id", node.id.toJson), ("label", .ofString node.label), ("type", node.kind.toJson)]

theorem Node.ofJson?_of_shows {node : Node} {v : Json} (h : Shows node.parts v) :
    ofJson? v = some node := by
  have hnames : node.parts.map (·.1) = ["id", "label", "type"] := rfl
  obtain ⟨found, hparts, hlookup⟩ := exists_parts?_of_shows hnames (by decide) h
  rw [ofJson?, hparts]
  simp only [required?, optional?, hlookup, parts, List.lookup_cons, String.reduceBEq,
    Option.bind_eq_bind, Option.bind_some, NodeKind.ofJson?_toJson]
  rfl

def Edge.parts (edge : Edge) : List (String × Json) :=
  [("source", edge.source.toJson), ("target", edge.target.toJson), ("kind", edge.kind.toJson),
    ("importedNames", .arr (edge.names.map ofString)), ("lineNumber", .ofNat edge.line)]

theorem Edge.ofJson?_of_shows {edge : Edge} (hline : edge.line < UInt64.size) {v : Json}
    (h : Shows edge.parts v) : ofJson? v = some edge := by
  have hnames : edge.parts.map (·.1) =
      ["source", "target", "kind", "importedNames", "lineNumber"] := rfl
  obtain ⟨found, hparts, hlookup⟩ := exists_parts?_of_shows hnames (by decide) h
  rw [ofJson?, hparts]
  simp only [required?, hlookup, parts, List.lookup_cons, String.reduceBEq, Option.bind_eq_bind,
    Option.bind_some, EdgeKind.ofJson?_toJson, texts?_ofString, nat?_ofNat hline]
  rfl

namespace Settings

/-- A number of workers as JSON. -/
def threadsJson : Option Nat → Json
  | some n => .ofNat n
  | none => .null

def parts (settings : Settings) : List (String × Json) :=
  [("extensions", .arr (settings.extensions.map ofString)),
    ("exclude_dirs", .arr (settings.excludeDirs.map ofString)),
    ("exclude", .arr (settings.exclude.map ofString)),
    ("threads", threadsJson settings.threads),
    ("respect_gitignore", .bool settings.respectGitignore)]

theorem toJson_eq_record (settings : Settings) : settings.toJson = record settings.parts := by
  obtain ⟨extensions, excludeDirs, exclude, threads, respectGitignore⟩ := settings
  cases threads with
  | none => rfl
  | some n => rfl

theorem threads?_threadsJson {threads : Option Nat} (h : ∀ n ∈ threads, n < UInt64.size) :
    threads? (threadsJson threads) = some threads := by
  cases threads with
  | none => rfl
  | some n =>
      show (nat? (.ofNat n)).map some = some (some n)
      rw [nat?_ofNat (h n rfl)]
      rfl

theorem ofJson?_of_shows {settings : Settings} (hthreads : ∀ n ∈ settings.threads, n < UInt64.size)
    {v : Json} (h : Shows settings.parts v) : ofJson? v = some settings := by
  have hnames : settings.parts.map (·.1) =
      ["extensions", "exclude_dirs", "exclude", "threads", "respect_gitignore"] := rfl
  obtain ⟨found, hparts, hlookup⟩ := exists_parts?_of_shows hnames (by decide) h
  rw [ofJson?, hparts]
  simp only [optional?, hlookup, parts, List.lookup_cons, String.reduceBEq, Option.bind_eq_bind,
    Option.bind_some, texts?_ofString, threads?_threadsJson hthreads, bool?]
  rfl

theorem proper_parts (settings : Settings) : Proper (record settings.parts) := by
  have htexts : ∀ texts : List String, Proper (.arr (texts.map ofString)) := fun _ =>
    proper_list fun _ _ => .str
  have hthreads : Proper (threadsJson settings.threads) := by
    cases settings.threads with
    | none => exact .null
    | some n => exact .num fun _ h => absurd h List.not_mem_nil
  exact proper_record_cons (htexts _) (proper_record_cons (htexts _) (proper_record_cons (htexts _)
    (proper_record_cons hthreads (proper_record_cons .bool proper_record_nil))))

end Settings

/-- Every node, edge and settings is read back from its compact JSON form; from every object that
holds its parts, in any order and with members of unknown keys and any values between them; and from
the array of its parts: however each of these is spelled. Of its numbers it is asked that sixty-four
bits hold them. -/
theorem Json.readBack_of_any_shape :
    (∀ node : Node, ReadBack Node.ofJson? node.toJson node.parts node) ∧
    (∀ edge : Edge, edge.line < UInt64.size → ReadBack Edge.ofJson? edge.toJson edge.parts edge) ∧
    ∀ settings : Settings, (∀ n ∈ settings.threads, n < UInt64.size) →
      ReadBack Settings.ofJson? settings.toJson settings.parts settings := by
  refine ⟨?_, ?_, ?_⟩
  · intro node
    exact readBack_of_shows (fun _ => Node.ofJson?_of_shows) (Graph.proper_node node)
  · intro edge hline
    exact readBack_of_shows (fun _ => Edge.ofJson?_of_shows hline) (Graph.proper_edge edge)
  · intro settings hthreads
    rw [settings.toJson_eq_record]
    exact readBack_of_shows (fun _ => Settings.ofJson?_of_shows hthreads) settings.proper_parts

/-- An edge with its parts backwards and an unknown member between them, in which there are a known
key and half of a surrogate pair; and settings as an array. -/
theorem Json.readBack_of_any_shape_backwards :
    let edge : Edge :=
      { source := ⟨"\"a"⟩, target := ⟨"b"⟩, kind := .exports, names := ["\\", "*"]
        line := UInt64.size - 1 }
    let text := "\x7b\"lineNumber\":18446744073709551615,\"x\":[1.5e-2,\x7b\"kind\":\"\\ud800\"\x7d]," ++
      "\"importedNames\":[\"\\\\\",\"*\"],\"kind\":\"export\",\"target\":\"b\",\"source\":\"\\\"a\"\x7d"
    let settings : Settings := { extensions := [], threads := some 4 }
    edge.line < UInt64.size ∧ (parse? text).bind Edge.ofJson? = some edge ∧
      (parse? "[[],[\"node_modules\"],[],4,true]").bind Settings.ofJson? = some settings := by
  intro edge text settings
  obtain ⟨-, hedges, hsettings⟩ := readBack_of_any_shape
  let unknown : Json :=
    .arr [.num { integer := 1, fraction := [5], exponent := some (-2) },
      .obj [(some "kind", .str none)]]
  let members : List (Option String × Json) :=
    [(some "lineNumber", .ofNat edge.line), (some "x", unknown),
      (some "importedNames", .arr (edge.names.map ofString)), (some "kind", edge.kind.toJson),
      (some "target", edge.target.toJson), (some "source", edge.source.toJson)]
  have hshows : Shows edge.parts (.obj members) := by
    have hperm : members.Perm
        (edge.parts.map (fun part => (some part.1, part.2)) ++ [(some "x", unknown)]) :=
      (List.reverse_perm members).symm.trans (.cons _ (.cons _ (.cons _ (.cons _ (.swap ..)))))
    refine .object hperm fun other hother => ?_
    rw [List.mem_singleton.1 hother]
    exact ⟨"x", rfl, by decide⟩
  have hunknown : Proper unknown := by
    refine .arr (List.forall_mem_cons.2 ⟨.num (by decide), List.forall_mem_singleton.2 ?_⟩)
    exact .obj (List.forall_mem_singleton.2 .str)
  have hproper : Proper (record [("lineNumber", .ofNat edge.line), ("x", unknown),
      ("importedNames", .arr (edge.names.map ofString)), ("kind", edge.kind.toJson),
      ("target", edge.target.toJson), ("source", edge.source.toJson)]) :=
    proper_record_cons (.num (by decide)) (proper_record_cons hunknown
      (proper_record_cons (proper_list fun _ _ => .str) (proper_record_cons .str
        (proper_record_cons .str (proper_record_cons .str proper_record_nil)))))
  have htext : (Json.obj members).compact = text := by decide +kernel
  have hline : edge.line < UInt64.size := Nat.sub_lt (by decide) Nat.one_pos
  have hedge := (hedges edge hline).2 _ _ hshows (spells_compact hproper)
  rw [htext] at hedge
  have hthreads : ∀ n ∈ settings.threads, n < UInt64.size := by decide
  have hsetting := (hsettings settings hthreads).2 _ _ .array
    (spells_compact (proper_values settings.proper_parts))
  have htext' : (Json.arr (settings.parts.map (·.2))).compact =
      "[[],[\"node_modules\"],[],4,true]" := by decide +kernel
  rw [htext'] at hsetting
  exact ⟨hline, hedge, hsetting⟩

end ModuleGraph
