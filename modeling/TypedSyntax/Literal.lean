import TypedSyntax.DataType
import TypedSyntax.Number.Double
import TypedSyntax.Literal.Temporal

/-!
# Literal values

The values of literals and the check of a value against a type. Integers are
128-bit words, so the range check stays inside their arithmetic.
-/

namespace TypedSyntax

/-- A literal's value. `int` holds a word in two's complement, `uint` an
unsigned word. -/
inductive LiteralValue where
  | bool (value : Bool)
  | int (value : BitVec 128)
  | uint (value : BitVec 128)
  | float (value : Double)
  | complex (real imag : Double)
  | text (value : String)
  | char (value : Char)
  | temporal (text : String)
deriving DecidableEq, Repr

/-- Why a value is no literal of a type. -/
inductive LiteralFault where
  | mismatch
  | outOfRange (value : Int)
  | temporal (fault : Temporal.Fault)
deriving DecidableEq, Repr

def LiteralFault.message : LiteralFault → String
  | .mismatch => "value does not match the literal type"
  | .outOfRange value => toString value ++ " is out of range"
  | .temporal fault => fault.message

namespace LiteralValue

/-- Whether an unsigned word lies in the range of an integer type. -/
def uintFits (value : BitVec 128) (signed : Bool) (width : IntWidth) : Bool :=
  match signed, width with
  | false, .w128 => true
  | false, width => value.ult (1#128 <<< width.bits)
  | true, width => value.ult (1#128 <<< (width.bits - 1))

/-- Whether a signed word lies in the range of an integer type. -/
def intFits (value : BitVec 128) (signed : Bool) (width : IntWidth) : Bool :=
  match signed, width with
  | true, .w128 => true
  | true, width =>
    let greatest := (1#128 <<< (width.bits - 1)) - 1#128
    (-greatest - 1#128).sle value && value.sle greatest
  | false, width => BitVec.sle 0#128 value && uintFits value false width

/-- Checks a value against the type of its literal. -/
def check (value : LiteralValue) (type : DataType) : Except LiteralFault Unit :=
  match value, type with
  | .bool _, .boolean => .ok ()
  | .int v, .int signed width =>
    if intFits v signed width then .ok () else .error (.outOfRange v.toInt)
  | .uint v, .int signed width =>
    if uintFits v signed width then .ok () else .error (.outOfRange v.toNat)
  | .float _, .float _ => .ok ()
  | .complex .., .complex _ => .ok ()
  | .text _, .string => .ok ()
  | .text _, .utf8String => .ok ()
  | .char _, .utf8Char => .ok ()
  | .temporal t, .date => (Temporal.checkDate t.toList).mapError .temporal
  | .temporal t, .time => (Temporal.checkTime t.toList).mapError .temporal
  | .temporal t, .dateTime => (Temporal.checkDateTime 'T' t.toList).mapError .temporal
  | .temporal t, .timestamp => (Temporal.checkDateTime ' ' t.toList).mapError .temporal
  | _, _ => .error .mismatch

end LiteralValue

end TypedSyntax
