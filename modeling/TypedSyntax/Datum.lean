import TypedSyntax.Number.Double

/-!
# Structural data

Data as it is exported: truth values, integers, doubles, texts, lists and
maps with ordered entries, in which a key may occur more than once.
-/

namespace TypedSyntax

inductive Datum where
  | bool (value : Bool)
  | int (value : Int)
  | float (value : Double)
  | text (value : String)
  | list (items : List Datum)
  | map (entries : List (String × Datum))
deriving Repr, Inhabited

namespace Datum

/-- Whether a signed or an unsigned word of 64 bits can hold the integer. -/
def fitsWord (i : Int) : Bool :=
  decide (-0x8000000000000000 ≤ i) && decide (i < 0x10000000000000000)

/-- How a double that is not finite is called. -/
def nonFiniteName (x : Double) : String :=
  if x.isNaN then "nan" else if x.isNegative then "-inf" else "inf"

/-- The map without entries. -/
def empty : Datum := .map []

/-- The map of one entry. -/
def single (key : String) (value : Datum) : Datum :=
  .map [(key, value)]

/-- The first value under a key. -/
def get? (key : String) : Datum → Option Datum
  | .map entries => (entries.find? (·.1 == key)).map (·.2)
  | _ => none

/-- The value of a map of one entry. -/
def single? : Datum → Option Datum
  | .map [(_, value)] => some value
  | _ => none

/-- The keys of a map in order. -/
def keys : Datum → List String
  | .map entries => entries.map (·.1)
  | _ => []

/-- The entries of a map in order. -/
def entries : Datum → List (String × Datum)
  | .map entries => entries
  | _ => []

@[simp] theorem entries_map (es : List (String × Datum)) : (Datum.map es).entries = es := rfl

def text? : Datum → Option String
  | .text value => some value
  | _ => none

def list? : Datum → Option (List Datum)
  | .list items => some items
  | _ => none

mutual

/-- Equality of values with doubles compared as numbers. -/
def numericEq : Datum → Datum → Bool
  | .bool a, .bool b => a == b
  | .int a, .int b => a == b
  | .float a, .float b => a.numericEq b
  | .text a, .text b => a == b
  | .list as, .list bs => numericEqItems as bs
  | .map as, .map bs => numericEqEntries as bs
  | _, _ => false

def numericEqItems : List Datum → List Datum → Bool
  | [], [] => true
  | a :: as, b :: bs => numericEq a b && numericEqItems as bs
  | _, _ => false

def numericEqEntries : List (String × Datum) → List (String × Datum) → Bool
  | [], [] => true
  | (k, a) :: as, (l, b) :: bs => k == l && numericEq a b && numericEqEntries as bs
  | _, _ => false

end

mutual

/-- Equality of values with doubles compared bit by bit, so that a NaN equals
itself. -/
def structureEq : Datum → Datum → Bool
  | .list as, .list bs => as.length == bs.length && structureEqItems as bs
  | .map as, .map bs => as.length == bs.length && structureEqEntries as bs
  | .float a, .float b => a == b
  | a, b => a.numericEq b

/-- Whether the items of two lists agree pair by pair, as far as both go. -/
def structureEqItems : List Datum → List Datum → Bool
  | a :: as, b :: bs => structureEq a b && structureEqItems as bs
  | _, _ => true

/-- Whether the entries of two maps agree pair by pair, as far as both go. -/
def structureEqEntries : List (String × Datum) → List (String × Datum) → Bool
  | (k, a) :: as, (l, b) :: bs => k == l && structureEq a b && structureEqEntries as bs
  | _, _ => true

end

end Datum

end TypedSyntax
