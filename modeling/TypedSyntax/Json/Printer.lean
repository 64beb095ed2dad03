import TypedSyntax.Json.Quoted
import TypedSyntax.Json.Value

/-!
# Compact JSON texts of values

`Value.print` writes a value on one line, without blanks.
-/

namespace TypedSyntax.Json

/-- A string value of plain characters. -/
def Value.ofString (text : String) : Value :=
  .string (text.toList.map .char)

def Value.ofNat (n : Nat) : Value :=
  .number ⟨false, (toString n).toList.map Text.decimalValue, [], none⟩

/-- A choice with contents. -/
def Value.ofChoice (name : String) (content : Value) : Value :=
  .object [(name.toList.map .char, content)]

/-- A record as an object. -/
def Value.ofRecord (fields : List (String × Value)) : Value :=
  .object (fields.map fun (name, value) => (name.toList.map .char, value))

def Piece.print : Piece → List Char
  | .char c => escape c
  | .unit code =>
    ['\\', 'u', Text.lowerHex (code / 4096), Text.lowerHex (code / 256 % 16),
      Text.lowerHex (code / 16 % 16), Text.lowerHex (code % 16)]

def printString (pieces : List Piece) : List Char :=
  '"' :: pieces.flatMap Piece.print ++ ['"']

def NumberText.print (n : NumberText) : List Char :=
  let sign := if n.negative then ['-'] else []
  let fraction := if n.fraction.isEmpty then [] else '.' :: n.fraction.map Nat.digitChar
  let exponent := n.exponent?.elim [] fun e => 'e' :: (toString e).toList
  sign ++ n.whole.map Nat.digitChar ++ fraction ++ exponent

namespace Value

mutual

/-- The text of a value. -/
def print : Value → List Char
  | .null => "null".toList
  | .bool true => "true".toList
  | .bool false => "false".toList
  | .number n => n.print
  | .string pieces => printString pieces
  | .list [] => ['[', ']']
  | .list (item :: items) => '[' :: item.print ++ printItems items
  | .object [] => ['{', '}']
  | .object ((key, value) :: entries) =>
    '{' :: printString key ++ ':' :: value.print ++ printEntries entries

def printItems : List Value → List Char
  | [] => [']']
  | item :: items => ',' :: item.print ++ printItems items

def printEntries : List (List Piece × Value) → List Char
  | [] => ['}']
  | (key, value) :: entries =>
    ',' :: printString key ++ ':' :: value.print ++ printEntries entries

end

def text (v : Value) : String :=
  String.ofList v.print

end Value

end TypedSyntax.Json
