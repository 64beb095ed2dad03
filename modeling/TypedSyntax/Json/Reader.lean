import TypedSyntax.Datum
import TypedSyntax.Json.Number

/-!
# Data from JSON

`Datum.ofJson?` reads data nested at most 127 levels deep. An absent value
`null` is the map without entries.
-/

namespace TypedSyntax.Json

/-- The greatest number of brackets around a value that is read. -/
def maxDepth : Nat := 127

def Number.toDatum : Number → Datum
  | .int i => .int i
  | .float x => .float x

mutual

/-- The datum of a value that may hold `depth` further levels. -/
def toDatum? (depth : Nat) : Value → Option Datum
  | .null => some .empty
  | .bool b => some (.bool b)
  | .number n => n.value?.map Number.toDatum
  | .string pieces => (stringOf? pieces).map .text
  | .list items =>
    match depth with
    | 0 => none
    | depth + 1 => (toItems? depth items).map .list
  | .object entries =>
    match depth with
    | 0 => none
    | depth + 1 => (toEntries? depth entries).map .map

def toItems? (depth : Nat) : List Value → Option (List Datum)
  | [] => some []
  | item :: items => do
    let item ← toDatum? depth item
    let items ← toItems? depth items
    return item :: items

def toEntries? (depth : Nat) : List (List Piece × Value) → Option (List (String × Datum))
  | [] => some []
  | (key, value) :: entries => do
    let key ← stringOf? key
    let value ← toDatum? depth value
    let entries ← toEntries? depth entries
    return (key, value) :: entries

end

end TypedSyntax.Json

namespace TypedSyntax.Datum

/-- Reads a JSON text. -/
def ofJson? (text : String) : Option Datum :=
  (Json.Value.ofText? text).bind (Json.toDatum? Json.maxDepth)

end TypedSyntax.Datum
