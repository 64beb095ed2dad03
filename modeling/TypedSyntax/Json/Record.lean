import TypedSyntax.Json.Number
import TypedSyntax.Json.Reader

/-!
# Choices and records in JSON

A choice without contents is its name, or an object that maps the name to
`null`; a choice with contents is an object of one entry. A record is an
object or the list of its fields in order. Unknown fields are skipped without
a look at their values. As in data, 127 levels of brackets are read.
-/

namespace TypedSyntax.Json

/-- The levels that remain inside a bracket. -/
def enter? : Nat → Option Nat
  | 0 => none
  | depth + 1 => some depth

/-- The name of a choice without contents. -/
def name? (depth : Nat) : Value → Option String
  | .string pieces => stringOf? pieces
  | .object [(name, .null)] => (enter? depth).bind fun _ => stringOf? name
  | _ => none

/-- One of several choices without contents. -/
def oneOf? {α : Type} (all : List α) (nameOf : α → String) (depth : Nat) (v : Value) : Option α :=
  (name? depth v).bind fun name => all.find? (nameOf · == name)

/-- The values of a record's fields: each field at most once in an object, and
in a list no more values than fields. -/
def fields? (names : List String) : Value → Option (List (Option Value))
  | .list items =>
    if items.length ≤ names.length then
      some (items.map some ++ List.replicate (names.length - items.length) none)
    else
      none
  | .object entries => do
    let keyed ← entries.mapM fun (key, value) => (stringOf? key).map (·, value)
    names.mapM fun name =>
      match keyed.filter (·.1 == name) with
      | [] => some none
      | [(_, value)] => some (some value)
      | _ => none
  | _ => none

def bool? : Value → Option Bool
  | .bool b => some b
  | _ => none

/-- A natural number below a bound. -/
def natBelow? (bound : Nat) : Value → Option Nat
  | .number n =>
    match n.value? with
    | some (.int (.ofNat k)) => if k < bound then some k else none
    | _ => none
  | _ => none

/-- Reads the whole text of a value of some type. -/
def decode {α : Type} (read : (depth : Nat) → Value → Option α) (text : String) : Option α :=
  (Value.ofText? text).bind (read maxDepth)

end TypedSyntax.Json
