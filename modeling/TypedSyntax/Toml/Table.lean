/-!
# TOML tables

The items of a TOML document and the rules by which headers and dotted keys
extend its tables: a table is opened by a header once, and a dotted key only
extends tables that dotted keys made.
-/

namespace TypedSyntax.Toml

/-- How a table came to be: by its own header, because a header below it names
it, or by a dotted key. -/
inductive Origin where
  | header
  | implied
  | dotted
deriving DecidableEq, Repr

/-- An item of a document. Inline tables are closed: nothing extends them. -/
inductive Item where
  | string (value : String)
  | integer (value : Int)
  | float
  | boolean (value : Bool)
  | dateTime
  | array (items : List Item)
  | inline (entries : List (String × Item))
  | table (origin : Origin) (entries : List (String × Item))
  | tables (list : List (List (String × Item)))
deriving Repr, Inhabited

/-- The entries of a table, in order, with distinct keys. -/
abbrev Entries := List (String × Item)

namespace Entries

def get? (entries : Entries) (key : String) : Option Item :=
  (entries.find? (·.1 == key)).map (·.2)

/-- Replaces the item under a key, or adds it at the end. -/
def put (entries : Entries) (key : String) (item : Item) : Entries :=
  if entries.any (·.1 == key) then
    entries.map fun entry => if entry.1 == key then (key, item) else entry
  else
    entries ++ [(key, item)]

/-- Changes the table that a header's path leads to. Missing tables on the way
are implied, and an array of tables stands for its last table. -/
def within (change : Entries → Option Entries) : List String → Entries → Option Entries
  | [], entries => change entries
  | key :: path, entries =>
    match entries.get? key with
    | none => (within change path []).map fun inner => entries.put key (.table .implied inner)
    | some (.table origin inner) =>
      (within change path inner).map fun inner => entries.put key (.table origin inner)
    | some (.tables list) =>
      (within change path (list.getLastD [])).map fun inner =>
        entries.put key (.tables (list.dropLast ++ [inner]))
    | some _ => none

/-- Opens a table by its header. -/
def openTable (key : String) (entries : Entries) : Option Entries :=
  match entries.get? key with
  | none => some (entries.put key (.table .header []))
  | some (.table .implied inner) => some (entries.put key (.table .header inner))
  | some _ => none

/-- Opens a further table of an array of tables by its header. -/
def openElement (key : String) (entries : Entries) : Option Entries :=
  match entries.get? key with
  | none => some (entries.put key (.tables [[]]))
  | some (.tables list) => some (entries.put key (.tables (list ++ [[]])))
  | some _ => none

/-- Sets a key that has no value yet. -/
def set (key : String) (item : Item) (entries : Entries) : Option Entries :=
  match entries.get? key with
  | none => some (entries.put key item)
  | some _ => none

/-- Sets a dotted key. The table that holds the last key has to be one that
dotted keys made. -/
def setDotted (item : Item) : (path : List String) → (key : String) → Entries → Option Entries
  | [], key, entries => entries.set key item
  | first :: path, key, entries =>
    match entries.get? first with
    | none =>
      (setDotted item path key []).map fun inner => entries.put first (.table .dotted inner)
    | some (.table origin inner) =>
      if origin = .header ∨ (path = [] ∧ origin ≠ .dotted) then none
      else
        (setDotted item path key inner).map fun inner => entries.put first (.table origin inner)
    | some (.tables list) =>
      if path = [] then none
      else
        (setDotted item path key (list.getLastD [])).map fun inner =>
          entries.put first (.tables (list.dropLast ++ [inner]))
    | some _ => none

end Entries

end TypedSyntax.Toml
