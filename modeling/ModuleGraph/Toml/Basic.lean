/-!
# TOML tables

A document is a table, and its statements say where in it something is. A table remembers how it
came to be, because that decides what may still be added to it: a table that has a header of its
own is not opened again by a header or by a dotted key, one that only stands above another may
still get its header, one that dotted keys made can only be extended by them or by the headers of
tables inside it, and an inline table is closed.
-/

namespace ModuleGraph

/-- How a table came to be. -/
inductive Toml.Origin where
  /-- By a header of its own; so is the document itself. -/
  | header
  /-- By the header of a table inside it. -/
  | implied
  /-- By a dotted key. -/
  | dotted
  /-- As a value, between braces. -/
  | inline
  deriving DecidableEq

/-- A TOML value. Of numbers with a fraction and of dates it is only known that they are such. -/
inductive Toml where
  | string (s : String)
  | integer (n : Int)
  | boolean (b : Bool)
  | float
  | moment
  | array (items : List Toml)
  | table (origin : Toml.Origin) (entries : List (String × Toml))
  /-- The tables under one header in double brackets, each with its entries. -/
  | tables (items : List (List (String × Toml)))

namespace Toml

/-- The entries of a table, in the order in which they were made. -/
abbrev Entries := List (String × Toml)

def replace (key : String) (value : Toml) (entries : Entries) : Entries :=
  entries.map fun (k, v) => if k = key then (k, value) else (k, v)

/-- Changes by `change` the table that `path` leads to from a table with the given entries. Tables
that are missing on the way are made. A dotted key (`dotted`) leads neither into an inline table
nor into one that has a header of its own; the path of a header leads into any table but an inline
one. Both lead into the last table under a header in double brackets. -/
def modify (dotted : Bool) (change : Origin → Entries → Option Entries) :
    List String → Origin → Entries → Option Entries
  | [], origin, entries => change origin entries
  | key :: path, _, entries =>
    match entries.lookup key with
    | none =>
      let origin := if dotted then .dotted else .implied
      (modify dotted change path origin []).map fun inner => entries ++ [(key, .table origin inner)]
    | some (.table .inline _) => none
    | some (.table origin inner) =>
      if dotted ∧ origin = .header then none
      else (modify dotted change path origin inner).map fun inner =>
        replace key (.table origin inner) entries
    | some (.tables items) => do
      let last ← items.getLast?
      let last ← modify dotted change path .header last
      return replace key (.tables (items.dropLast ++ [last])) entries
    | some _ => none

/-- Enters a value under a key that is free. A table that dotted keys did not make gets nothing
from a dotted key (`viaDots`). -/
def enter (viaDots : Bool) (key : String) (value : Toml) (origin : Origin) (entries : Entries) :
    Option Entries :=
  if viaDots ∧ origin ≠ .dotted then none
  else if (entries.lookup key).isSome then none
  else some (entries ++ [(key, value)])

/-- Enters a value under the dotted key `path` and `key`. -/
def enterDotted (path : List String) (key : String) (value : Toml) :
    Origin → Entries → Option Entries :=
  modify true (enter (!path.isEmpty) key value) path

/-- Opens the table that a header names by its last key. -/
def open? (key : String) (_ : Origin) (entries : Entries) : Option Entries :=
  match entries.lookup key with
  | none => some (entries ++ [(key, .table .header [])])
  | some (.table .implied inner) => some (replace key (.table .header inner) entries)
  | some _ => none

/-- Opens one more table under the last key of a header in double brackets. -/
def append? (key : String) (_ : Origin) (entries : Entries) : Option Entries :=
  match entries.lookup key with
  | none => some (entries ++ [(key, .tables [[]])])
  | some (.tables items) => some (replace key (.tables (items ++ [[]])) entries)
  | some _ => none

def strings? : Toml → Option (List String)
  | .array items => items.mapM fun
    | .string s => some s
    | _ => none
  | _ => none

def nat? : Toml → Option Nat
  | .integer (.ofNat n) => some n
  | _ => none

def boolean? : Toml → Option Bool
  | .boolean b => some b
  | _ => none

end Toml

end ModuleGraph
