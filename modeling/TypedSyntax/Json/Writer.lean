import TypedSyntax.Datum
import TypedSyntax.Json.Quoted
import TypedSyntax.Number.Layout

/-!
# JSON texts of data

The compact and the indented JSON text of a value. Integers that 64 bits
cannot hold and doubles that are not finite are written as strings.
-/

namespace TypedSyntax.Json

/-- Numbers are positional from 10⁻⁵ up to 10¹⁶; an exponent has a sign. -/
def numberLayout : FloatLayout := ⟨some (-5), 15, true, .toEven⟩

def integer (i : Int) : List Char :=
  if Datum.fitsWord i then (toString i).toList else quoted (toString i)

def float (x : Double) : List Char :=
  if x.isFinite then (numberLayout.text x).toList else quoted (Datum.nonFiniteName x)

/-- Whether values are written on one line or with two spaces of indentation
for each level. -/
inductive Style where
  | compact
  | indented
deriving DecidableEq, Repr

/-- What stands before an element and before a closing bracket at a level. -/
def Style.gap (style : Style) (level : Nat) : List Char :=
  match style with
  | .compact => []
  | .indented => '\n' :: List.replicate (2 * level) ' '

/-- What stands between a key and its value. -/
def Style.colon : Style → List Char
  | .compact => [':']
  | .indented => [':', ' ']

mutual

/-- The text of a value at a level of nesting. -/
def write (style : Style) (level : Nat) : Datum → List Char
  | .bool true => "true".toList
  | .bool false => "false".toList
  | .int i => integer i
  | .float x => float x
  | .text s => quoted s
  | .list [] => ['[', ']']
  | .list (item :: items) =>
    '[' :: style.gap (level + 1) ++ write style (level + 1) item ++
      writeItems style level items
  | .map [] => ['{', '}']
  | .map ((key, value) :: entries) =>
    '{' :: style.gap (level + 1) ++ quoted key ++ style.colon ++
      write style (level + 1) value ++ writeEntries style level entries

/-- The further items of a list and its closing bracket. -/
def writeItems (style : Style) (level : Nat) : List Datum → List Char
  | [] => style.gap level ++ [']']
  | item :: items =>
    ',' :: style.gap (level + 1) ++ write style (level + 1) item ++
      writeItems style level items

/-- The further entries of a map and its closing bracket. -/
def writeEntries (style : Style) (level : Nat) : List (String × Datum) → List Char
  | [] => style.gap level ++ ['}']
  | (key, value) :: entries =>
    ',' :: style.gap (level + 1) ++ quoted key ++ style.colon ++
      write style (level + 1) value ++ writeEntries style level entries

end

end TypedSyntax.Json

namespace TypedSyntax.Datum

/-- The JSON text on one line. -/
def compactJson (d : Datum) : String :=
  String.ofList (Json.write .compact 0 d)

/-- The JSON text with indentation. -/
def json (d : Datum) : String :=
  String.ofList (Json.write .indented 0 d)

end TypedSyntax.Datum
