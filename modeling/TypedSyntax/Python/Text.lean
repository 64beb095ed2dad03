import TypedSyntax.DataType
import TypedSyntax.Number.Layout
import TypedSyntax.Text.Digit

/-!
# Python texts of values and types

String literals, floating-point literals and type annotations.
-/

namespace TypedSyntax.Python

/-- A character between double quotes. Control characters are escaped by
number unless they have a short escape. -/
def escape (c : Char) : List Char :=
  match c with
  | '"' => ['\\', '"']
  | '\\' => ['\\', '\\']
  | '\n' => ['\\', 'n']
  | '\r' => ['\\', 'r']
  | '\t' => ['\\', 't']
  | c =>
    let n := c.toNat
    if n < 0x20 ∨ n = 0x7f then
      ['\\', 'x', Text.lowerHex (n / 16), Text.lowerHex (n % 16)]
    else if 0x80 ≤ n ∧ n < 0xa0 then
      ['\\', 'u', '0', '0', Text.lowerHex (n / 16), Text.lowerHex (n % 16)]
    else
      [c]

/-- The string literal of a text. -/
def quote (text : String) : String :=
  String.ofList ('"' :: text.toList.flatMap escape ++ ['"'])

/-- Numbers below 10¹⁶ are positional; an exponent has no plus sign. -/
def numberLayout : FloatLayout := ⟨none, 15, false, .upwards⟩

/-- The expression of a double. -/
def floatLiteral (x : Double) : String :=
  if x.isNaN then "float('nan')"
  else if x.isInfinite then
    if x.isNegative then "float('-inf')" else "float('inf')"
  else numberLayout.text x

mutual

/-- The annotation of a type. -/
def hint : DataType → String
  | .boolean => "bool"
  | .int .. => "int"
  | .float _ => "float"
  | .complex _ => "complex"
  | .date => "datetime.date"
  | .time => "datetime.time"
  | .dateTime | .timestamp => "datetime.datetime"
  | .string | .utf8String | .utf8Char => "str"
  | .bareList => "list"
  | .list item => "list[" ++ hint item ++ "]"
  | .bareSet => "set"
  | .set item => "set[" ++ hint item ++ "]"
  | .tuple [] => "tuple"
  | .tuple (item :: items) => "tuple[" ++ hint item ++ hintTail items ++ "]"
  | .bareMap => "dict"
  | .map key value => "dict[" ++ hint key ++ ", " ++ hint value ++ "]"
  | .null => "None"
  | .any => "Any"

/-- The annotations of further tuple items, each after a comma. -/
def hintTail : List DataType → String
  | [] => ""
  | item :: items => ", " ++ hint item ++ hintTail items

end

end TypedSyntax.Python
