/-
# Tables under construction

While a TOML document is read its tables stay open, and what may still be added
to one depends on how it came to be:

* a table with a header of its own takes entries under its header only, and no
  second header;
* a table that only a longer header implies may still get its own header;
* a table made by dotted keys takes more of them, but no header.

Each operation gives `none` where the document is at fault.
-/
import LuaVeil.Data.Value

namespace LuaVeil.Data.Toml

/-- How a table came to be. -/
inductive Origin where
  /-- by its own header -/
  | header
  /-- by a longer header -/
  | implied
  /-- by dotted keys -/
  | dotted
  deriving DecidableEq

/-- What a name stands for in a table under construction. -/
inductive Node where
  | value (v : Value)
  | table (origin : Origin) (entries : List (Text × Node))
  /-- tables under one header each, the last in front -/
  | tables (items : List (List (Text × Node)))

/-- The entries of a table under construction. -/
abbrev Entries := List (Text × Node)

namespace Entries

/-- Put an entry in the place of the one with its name, or behind all others. -/
def put (name : Text) (node : Node) : Entries → Entries
  | [] => [(name, node)]
  | (n, old) :: entries =>
    if n = name then (n, node) :: entries else (n, old) :: put name node entries

/--
Enter a value under a key of one or more parts. The tables on the way are made, or are not made by
a header; `direct` tells whether an entry may be put into this very table.
-/
def assign (v : Value) (direct : Bool) : List Text → Entries → Option Entries
  | [], _ => none
  | [name], entries =>
    if direct && (entries.lookup name).isNone then some (entries.put name (.value v)) else none
  | name :: path, entries =>
    match entries.lookup name with
    | none => (assign v true path []).map fun inner => entries.put name (.table .dotted inner)
    | some (.table origin inner) =>
      if origin = .header then none
      else (assign v (origin == .dotted) path inner).map fun inner =>
        entries.put name (.table origin inner)
    | some (.tables (last :: items)) =>
      (assign v false path last).map fun last => entries.put name (.tables (last :: items))
    | some _ => none

/-- Change the table at a path of headers; of tables under one header it is the last. -/
def change (f : Entries → Option Entries) : List Text → Entries → Option Entries
  | [], entries => f entries
  | name :: path, entries =>
    match entries.lookup name with
    | none => (change f path []).map fun inner => entries.put name (.table .implied inner)
    | some (.table origin inner) =>
      (change f path inner).map fun inner => entries.put name (.table origin inner)
    | some (.tables (last :: items)) =>
      (change f path last).map fun last => entries.put name (.tables (last :: items))
    | some _ => none

/-- Open the table of a header. -/
def openTable (name : Text) (entries : Entries) : Option Entries :=
  match entries.lookup name with
  | none => some (entries.put name (.table .header []))
  | some (.table .implied inner) => some (entries.put name (.table .header inner))
  | some _ => none

/-- Open one more of the tables under a header. -/
def openItem (name : Text) (entries : Entries) : Option Entries :=
  match entries.lookup name with
  | none => some (entries.put name (.tables [[]]))
  | some (.tables items) => some (entries.put name (.tables ([] :: items)))
  | some _ => none

end Entries

/-! ## Finished tables -/

mutual

/-- What a finished entry stands for. -/
def Node.finish : Node → Value
  | .value v => v
  | .table _ entries => .record (finishEntries entries)
  | .tables items => .list (finishItems items).reverse

/-- The fields of a finished table. -/
def finishEntries : List (Text × Node) → List (Option Text × Value)
  | [] => []
  | (name, node) :: entries => (some name, node.finish) :: finishEntries entries

/-- The finished tables under one header. -/
def finishItems : List (List (Text × Node)) → List Value
  | [] => []
  | entries :: items => .record (finishEntries entries) :: finishItems items

end

end LuaVeil.Data.Toml
