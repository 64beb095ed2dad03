import TypedSyntax.Error

/-!
# Numeric promotion

The type of an arithmetic operation on two numbers is the wider operand type,
the left one if both have the same size.
-/

namespace TypedSyntax.DataType

/-- The result type of two numeric operands. The first operand that is not
numeric is the one refused. -/
def promote (a b : DataType) : Except TypeError DataType :=
  match a.byteWidth?, b.byteWidth? with
  | none, _ => .error (.nonNumeric a)
  | some _, none => .error (.nonNumeric b)
  | some wa, some wb => .ok (if wa < wb then b else a)

end TypedSyntax.DataType
