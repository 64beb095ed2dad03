import TypedSyntax.DataType.Promotion

/-!
# Typing rules

The types of elements, unary operations and binary operations. `any` is
admitted as every operand.
-/

namespace TypedSyntax

/-- The type of the elements that a loop over a value of this type visits. -/
def DataType.element : DataType → Except TypeError DataType
  | .list item | .set item => .ok item
  | .bareList | .bareSet | .bareMap | .any => .ok .any
  | .tuple items => .ok ((common? items).getD .any)
  | .map key _ => .ok key
  | .string | .utf8String => .ok .utf8Char
  | other => .error (.notIterable other)

/-- The type of a unary operation. -/
def UnaryOperator.resultType (op : UnaryOperator) (operand : DataType) :
    Except TypeError DataType :=
  match op with
  | .not =>
    if operand.isBoolean || operand.isAny then .ok .boolean else .error (.nonBoolean operand)
  | .bitNot =>
    if operand.isInteger || operand.isAny then .ok operand else .error (.nonInteger operand)
  | .neg | .pos =>
    if operand.isNumeric || operand.isAny then .ok operand else .error (.nonNumeric operand)

/-- The type of a binary operation on operands that are not `any`. -/
def BinaryOperator.checkedType (op : BinaryOperator) (lhs rhs : DataType) :
    Except TypeError DataType :=
  match op.operatorClass with
  | .arithmetic =>
    if lhs.isString && rhs.isString then
      if op = .add ∧ lhs = rhs then .ok lhs else .error (.incompatible op lhs rhs)
    else
      lhs.promote rhs
  | .comparison =>
    if (op = .eq ∨ op = .ne) ∧ lhs = rhs then .ok .boolean
    else (lhs.promote rhs).map fun _ => .boolean
  | .logical =>
    if !lhs.isBoolean then .error (.nonBoolean lhs)
    else if !rhs.isBoolean then .error (.nonBoolean rhs)
    else .ok .boolean

/-- The type of a binary operation. -/
def BinaryOperator.resultType (op : BinaryOperator) (lhs rhs : DataType) :
    Except TypeError DataType :=
  if lhs.isAny || rhs.isAny then
    match op.operatorClass with
    | .arithmetic => .ok (if lhs.isAny then rhs else lhs)
    | .comparison | .logical => .ok .boolean
  else
    op.checkedType lhs rhs

end TypedSyntax
