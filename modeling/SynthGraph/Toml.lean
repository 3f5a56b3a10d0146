/-!
# TOML documents

A document is a list of statements: assignments and headers. `Toml.Entries.ofStatements` puts them
together and refuses what the format forbids, such as a key or a table that is defined twice.
-/

namespace SynthGraph.Toml

/-- How a table came about, which decides who may add to it. -/
inductive Origin where
  /-- By a header of its own; dotted keys may not add to it. -/
  | header
  /-- As a part of the path of a header; a header of its own may follow. -/
  | path
  /-- As a part of a dotted key; only dotted keys and headers below it may add to it. -/
  | dotted
  /-- As a value between braces; nothing may be added. -/
  | inline
  deriving DecidableEq, Repr

inductive Item where
  | string (value : String)
  | boolean (value : Bool)
  | integer (value : Int)
  | float (literal : String)
  | dateTime (literal : String)
  | array (items : List Item)
  | table (origin : Origin) (entries : List (String × Item))
  /-- The tables that headers between double brackets start one after the other. -/
  | rows (tables : List (List (String × Item)))
  deriving Repr, Inhabited

abbrev Entries := List (String × Item)

/-- A line of a document that says something. -/
inductive Statement where
  | assign (path : List String) (key : String) (value : Item)
  | table (path : List String) (key : String)
  | row (path : List String) (key : String)
  deriving Repr

namespace Entries

def set (entries : Entries) (key : String) (item : Item) : Entries :=
  entries.map fun entry => if entry.1 == key then (key, item) else entry

/-- Change the table at a path, creating the tables on the way that do not exist. A path leads
through the last one of a list of tables. The path of a dotted key may not pass a table that has a
header of its own. -/
def alter (dotted : Bool) (change : Origin → Entries → Option Entries) :
    List String → Origin → Entries → Option Entries
  | [], origin, entries => change origin entries
  | key :: path, _, entries =>
    match entries.lookup key with
    | none => do
      let origin := if dotted then Origin.dotted else Origin.path
      let inner ← alter dotted change path origin []
      return entries ++ [(key, .table origin inner)]
    | some (.table origin inner) => do
      if origin = .inline || dotted && origin = .header then none
      let inner ← alter dotted change path origin inner
      return entries.set key (.table origin inner)
    | some (.rows tables) => do
      let last ← tables.getLast?
      let inner ← alter dotted change path .header last
      return entries.set key (.rows (tables.dropLast ++ [inner]))
    | some _ => none

/-- A new entry; the key must not be taken. -/
def insertNew (entries : Entries) (key : String) (item : Item) : Option Entries :=
  if (entries.lookup key).isSome then none else some (entries ++ [(key, item)])

/-- Assign to a key, which may be dotted: then the table it names must be one of dotted keys. -/
def assign (path : List String) (key : String) (value : Item) (entries : Entries) :
    Option Entries :=
  entries.alter true (fun origin table =>
    if !path.isEmpty && origin != .dotted then none else insertNew table key value) path .header

/-- Start a table. It must be new, or have come about in the path of another header. -/
def startTable (path : List String) (key : String) (entries : Entries) : Option Entries :=
  entries.alter false (fun _ parent =>
    match parent.lookup key with
    | none => some (parent ++ [(key, .table .header [])])
    | some (.table .path inner) => some (parent.set key (.table .header inner))
    | some _ => none) path .header

/-- Start the next table of a list. -/
def startRow (path : List String) (key : String) (entries : Entries) : Option Entries :=
  entries.alter false (fun _ parent =>
    match parent.lookup key with
    | none => some (parent ++ [(key, .rows [[]])])
    | some (.rows tables) => some (parent.set key (.rows (tables ++ [[]])))
    | some _ => none) path .header

/-- The entries so far, and the path of the table that assignments go to. -/
def step (state : Entries × List String) : Statement → Option (Entries × List String)
  | .assign path key value => do
    let entries ← state.1.alter false (fun _ table => table.assign path key value) state.2 .header
    return (entries, state.2)
  | .table path key => do
    return (← state.1.startTable path key, path ++ [key])
  | .row path key => do
    return (← state.1.startRow path key, path ++ [key])

/-- The entries of a document. -/
def ofStatements (statements : List Statement) : Option Entries := do
  let (entries, _) ← statements.foldlM step ([], [])
  return entries

end Entries

end SynthGraph.Toml
