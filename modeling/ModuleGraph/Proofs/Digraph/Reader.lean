import ModuleGraph.Proofs.Statement.Grammar
import ModuleGraph.Render

/-!
# Reading a digraph

`Digraph.parse?` reads the part of the DOT language that a graph is rendered in: labelled nodes,
and labelled edges, one statement each. Blanks may stand before each part of a statement. What can
go wrong in reading a rendering is that a text in it is taken for the language around it, so the
one rule that matters is that of strings: a string ends at the first quote without a backslash of
its own before it, and a backslash is taken off where it stands before a quote or a backslash
(`string?`).

A text is escaped in one pass, which comes to two replacements, of backslashes and then of quotes
(`flatMap_dotEscape`). The rule undoes these and stops right behind the text, whatever comes next
(`string?_replaced`). No other fact about texts is used: a text may have quotes, a backslash at
its end, lines, or whole statements in it.
-/

namespace ModuleGraph

open Text Statement

/-- What a digraph says: each node by its identifier and label, each edge by the identifiers of
its two ends and its label, both in the order of their statements. -/
structure Digraph where
  nodes : List (String × String) := []
  edges : List (String × String × String) := []
  deriving DecidableEq

namespace Digraph

/-! ## The reader -/

/-- The characters of a string and the text after it, when its opening quote has been read. -/
def string? : List Char → Option (List Char × List Char)
  | [] => none
  | '"' :: cs => some ([], cs)
  | '\\' :: '\\' :: cs => (string? cs).map fun (s, rest) => ('\\' :: s, rest)
  | '\\' :: '"' :: cs => (string? cs).map fun (s, rest) => ('"' :: s, rest)
  | c :: cs => (string? cs).map fun (s, rest) => (c :: s, rest)

/-- The rest of the text after blanks and `word`. -/
def expect? (word : List Char) (cs : List Char) : Option (List Char) :=
  after? word (trimStart cs)

def quoted? (cs : List Char) : Option (String × List Char) := do
  let cs ← expect? ['"'] cs
  let (s, rest) ← string? cs
  return (String.ofList s, rest)

def opening : List Char :=
  ['[', 'l', 'a', 'b', 'e', 'l', '=']

def closing : List Char :=
  [']', ';']

def arrow : List Char :=
  ['-', '>']

/-- The label at the end of a statement. -/
def label? (cs : List Char) : Option (String × List Char) := do
  let cs ← expect? opening cs
  let (label, cs) ← quoted? cs
  let cs ← expect? closing cs
  return (label, cs)

/-- A statement is taken in front of the statements after it. -/
inductive Item where
  | node (id label : String)
  | edge (source target label : String)

def Item.before (d : Digraph) : Item → Digraph
  | .node id label => { d with nodes := (id, label) :: d.nodes }
  | .edge source target label => { d with edges := (source, target, label) :: d.edges }

/-- A statement, which is that of an edge if an arrow follows the first identifier. -/
def item? (cs : List Char) : Option (Item × List Char) := do
  let (id, cs) ← quoted? cs
  match expect? arrow cs with
  | none => do
    let (label, cs) ← label? cs
    return (.node id label, cs)
  | some cs => do
    let (target, cs) ← quoted? cs
    let (label, cs) ← label? cs
    return (.edge id target label, cs)

theorem length_lt_of_string? {cs s rest : List Char} (h : string? cs = some (s, rest)) :
    rest.length < cs.length := by
  fun_induction string? cs generalizing s with
  | case1 => cases h
  | case2 cs =>
      cases h
      exact Nat.lt_succ_self _
  | case3 cs ih | case4 cs ih =>
      obtain ⟨⟨_, _⟩, hread, heq⟩ := Option.map_eq_some_iff.1 h
      cases heq
      exact Nat.lt_succ_of_lt (Nat.lt_succ_of_lt (ih hread))
  | case5 c cs _ _ _ ih =>
      obtain ⟨⟨_, _⟩, hread, heq⟩ := Option.map_eq_some_iff.1 h
      cases heq
      exact Nat.lt_succ_of_lt (ih hread)

theorem length_le_of_expect? {word cs rest : List Char} (h : expect? word cs = some rest) :
    rest.length ≤ cs.length :=
  Nat.le_trans (length_le_of_after? h) (length_dropWhile_le isBlank cs)

theorem length_lt_of_quoted? {cs rest : List Char} {s : String}
    (h : quoted? cs = some (s, rest)) : rest.length < cs.length := by
  simp only [quoted?, Option.bind_eq_bind, Option.bind_eq_some_iff, Prod.exists, Option.pure_def,
    Option.some.injEq, Prod.mk.injEq] at h
  obtain ⟨_, hquote, _, _, hstring, -, rfl⟩ := h
  exact Nat.lt_of_lt_of_le (length_lt_of_string? hstring) (length_le_of_expect? hquote)

theorem length_lt_of_label? {cs rest : List Char} {label : String}
    (h : label? cs = some (label, rest)) : rest.length < cs.length := by
  simp only [label?, Option.bind_eq_bind, Option.bind_eq_some_iff, Prod.exists, Option.pure_def,
    Option.some.injEq, Prod.mk.injEq] at h
  obtain ⟨_, h₁, _, _, h₂, _, h₃, -, rfl⟩ := h
  exact Nat.lt_of_le_of_lt (length_le_of_expect? h₃)
    (Nat.lt_of_lt_of_le (length_lt_of_quoted? h₂) (length_le_of_expect? h₁))

/-- Reading a statement takes something off the text. -/
theorem length_lt_of_item? {cs rest : List Char} {item : Item}
    (h : item? cs = some (item, rest)) : rest.length < cs.length := by
  obtain ⟨⟨id, cs'⟩, hid, h⟩ := Option.bind_eq_some_iff.1 h
  have hlt := length_lt_of_quoted? hid
  dsimp only at h
  split at h
  · simp only [Option.bind_eq_bind, Option.bind_eq_some_iff, Prod.exists, Option.pure_def,
      Option.some.injEq, Prod.mk.injEq] at h
    obtain ⟨_, _, hlabel, -, rfl⟩ := h
    exact Nat.lt_trans (length_lt_of_label? hlabel) hlt
  · next harrow =>
    simp only [Option.bind_eq_bind, Option.bind_eq_some_iff, Prod.exists, Option.pure_def,
      Option.some.injEq, Prod.mk.injEq] at h
    obtain ⟨_, _, htarget, _, _, hlabel, -, rfl⟩ := h
    exact Nat.lt_trans (length_lt_of_label? hlabel) (Nat.lt_trans (length_lt_of_quoted? htarget)
      (Nat.lt_of_le_of_lt (length_le_of_expect? harrow) hlt))

/-- The closing brace, behind which there are only blanks. -/
def end? (cs : List Char) : Option Digraph := do
  let cs ← expect? ['\x7d'] cs
  if (trimStart cs).isEmpty then some {} else none

/-- The statements up to the closing brace. -/
def body? (cs : List Char) : Option Digraph :=
  match h : item? cs with
  | some (item, rest) =>
    have := length_lt_of_item? h
    (body? rest).map item.before
  | none => end? cs
termination_by cs.length

def header : List Char :=
  "digraph imports \x7b".toList

def parse? (text : String) : Option Digraph :=
  (expect? header text.toList).bind body?

/-! ## Strings -/

/-- `cs` with `new` in the place of each `old`. -/
def replaced (old : Char) (new cs : List Char) : List Char :=
  cs.flatMap fun c => if c = old then new else [c]

/-- A text is escaped by two replacements. Backslashes come first, or those that the quotes get
would be doubled in turn. -/
theorem flatMap_dotEscape (cs : List Char) : cs.flatMap Graph.dotEscape =
    replaced '"' ['\\', '"'] (replaced '\\' ['\\', '\\'] cs) := by
  rw [replaced, replaced, List.flatMap_assoc]
  refine congrArg (List.flatMap · cs) (funext fun c => ?_)
  by_cases hbackslash : c = '\\'
  · rw [hbackslash]
    rfl
  · by_cases hquote : c = '"'
    · rw [hquote]
      rfl
    · simp only [Graph.dotEscape, hbackslash, hquote, or_self, if_false, List.flatMap_cons,
        List.flatMap_nil, List.append_nil]

theorem string?_plain {c : Char} (hquote : c ≠ '"') (hbackslash : c ≠ '\\') (cs : List Char) :
    string? (c :: cs) = (string? cs).map fun (s, rest) => (c :: s, rest) := by
  rw [string?]
  · exact hquote
  · exact fun _ h => absurd h hbackslash
  · exact fun _ h => absurd h hbackslash

theorem replaced_cons (old : Char) (new : List Char) (c : Char) (cs : List Char) :
    replaced old new (c :: cs) = (if c = old then new else [c]) ++ replaced old new cs :=
  List.flatMap_cons

theorem replaced_append (old : Char) (new cs cs' : List Char) :
    replaced old new (cs ++ cs') = replaced old new cs ++ replaced old new cs' :=
  List.flatMap_append

/-- A text with the two replacements is read back, and nothing behind its closing quote is looked
at. -/
theorem string?_replaced (s rest : List Char) :
    string? (replaced '"' ['\\', '"'] (replaced '\\' ['\\', '\\'] s) ++ '"' :: rest) =
      some (s, rest) := by
  induction s with
  | nil => rfl
  | cons c s ih =>
      rw [replaced_cons, replaced_append, List.append_assoc]
      by_cases hbackslash : c = '\\'
      · subst hbackslash
        show (string? (replaced _ _ (replaced _ _ s) ++ '"' :: rest)).map _ = _
        rw [ih]
        rfl
      · rw [if_neg hbackslash, replaced_cons]
        by_cases hquote : c = '"'
        · subst hquote
          show (string? (replaced _ _ (replaced _ _ s) ++ '"' :: rest)).map _ = _
          rw [ih]
          rfl
        · rw [if_neg hquote]
          show string? (c :: (replaced _ _ (replaced _ _ s) ++ '"' :: rest)) = _
          rw [string?_plain hquote hbackslash, ih]
          rfl

end Digraph

end ModuleGraph
