/-!
# TOML documents

A document is a table of named items. Every table remembers how it came to be, because that decides
whether more can be added to it : a table that only stands on the way to another may still be opened
by a header, a table made by a dotted key may take further dotted keys, and all others are closed.
-/

namespace Rill.Toml

/-- How a table came to be. -/
inductive Origin where
  | path
  | dotted
  | header
  | inline
deriving DecidableEq, Repr

/-- An item of a document. Floats and dates keep their text. -/
inductive Item where
  | string (value : String)
  | int (value : Int)
  | float (text : String)
  | bool (value : Bool)
  | date (text : String)
  | array (items : List Item)
  | table (origin : Origin) (entries : List (String × Item))
  | tables (last : List (String × Item)) (earlier : List (List (String × Item)))
deriving Repr

/-- The entries of a table in the order in which they were added. -/
abbrev Entries := List (String × Item)

/-- Puts an item under a name, in place of what was there. -/
def Entries.put (name : String) (item : Item) : Entries → Entries
  | [] => [(name, item)]
  | (other, old) :: rest =>
    if other == name then (name, item) :: rest else (other, old) :: put name item rest

/-- Adds an item under a new name. -/
def Entries.add? (name : String) (item : Item) (entries : Entries) : Option Entries :=
  if (entries.lookup name).isSome then none else some (entries ++ [(name, item)])

/-- Changes the table at a path of headers. Missing tables on the way are made. -/
def Entries.atPath? (change : Entries → Option Entries) : List String → Entries → Option Entries
  | [], entries => change entries
  | name :: path, entries =>
    match entries.lookup name with
    | none => do
      let inner ← atPath? change path []
      return entries ++ [(name, .table .path inner)]
    | some (.table .inline _) => none
    | some (.table origin old) => do
      let inner ← atPath? change path old
      return entries.put name (.table origin inner)
    | some (.tables last earlier) => do
      let inner ← atPath? change path last
      return entries.put name (.tables inner earlier)
    | some _ => none

/-- Adds an item under a dotted key. All tables on the way are new or were made by dotted keys. -/
def Entries.addDotted? (item : Item) : List String → Entries → Option Entries
  | [], _ => none
  | [name], entries => entries.add? name item
  | name :: path, entries =>
    match entries.lookup name with
    | none => do
      let inner ← addDotted? item path []
      return entries ++ [(name, .table .dotted inner)]
    | some (.table .dotted old) => do
      let inner ← addDotted? item path old
      return entries.put name (.table .dotted inner)
    | some _ => none

/-- Opens the table of a header. -/
def Entries.openTable? (name : String) (entries : Entries) : Option Entries :=
  match entries.lookup name with
  | none => some (entries ++ [(name, .table .header [])])
  | some (.table .path inner) => some (entries.put name (.table .header inner))
  | some _ => none

/-- Opens a further table of an array of tables. -/
def Entries.openElement? (name : String) (entries : Entries) : Option Entries :=
  match entries.lookup name with
  | none => some (entries ++ [(name, .tables [] [])])
  | some (.tables last earlier) => some (entries.put name (.tables [] (last :: earlier)))
  | some _ => none

/-- A document under construction : its entries and the path of the open table. -/
structure Draft where
  entries : Entries := []
  path : List String := []

namespace Draft

/-- Opens the table, or a further element of the array of tables, that a header names. -/
def openAt? (d : Draft) (path : List String) (element : Bool) : Option Draft := do
  let name ← path.getLast?
  let step := if element then Entries.openElement? name else Entries.openTable? name
  let entries ← d.entries.atPath? step path.dropLast
  return ⟨entries, path⟩

/-- Adds an item under a dotted key of the open table. -/
def add? (d : Draft) (key : List String) (item : Item) : Option Draft := do
  let entries ← d.entries.atPath? (Entries.addDotted? item key) d.path
  return { d with entries := entries }

end Draft

end Rill.Toml
