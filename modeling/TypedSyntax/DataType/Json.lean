import TypedSyntax.DataType
import TypedSyntax.Json.Printer
import TypedSyntax.Json.Record

/-!
# JSON forms of data types

A scalar type is its name, a sized type an object with its size, and a
collection type an object with its parameters, `null` when it has none.
-/

namespace TypedSyntax

open Json

def IntWidth.all : List IntWidth := [.w8, .w16, .w32, .w64, .w128]

def FloatWidth.all : List FloatWidth := [.w16, .w32, .w64]

def ComplexWidth.all : List ComplexWidth := [.w32, .w64]

/-- The name of a size in data. -/
def IntWidth.name (width : IntWidth) : String := "W" ++ toString width.bits

def FloatWidth.name (width : FloatWidth) : String := "W" ++ toString width.bits

def ComplexWidth.name (width : ComplexWidth) : String := "W" ++ toString width.bits

namespace DataType

mutual

/-- The JSON form of a type. -/
def toJson : DataType → Value
  | .boolean => .ofString "Boolean"
  | .int signed width =>
    .ofChoice "Int" (.ofRecord [("signed", .bool signed), ("width", .ofString width.name)])
  | .float width => .ofChoice "Float" (.ofRecord [("width", .ofString width.name)])
  | .complex width => .ofChoice "Complex" (.ofRecord [("width", .ofString width.name)])
  | .date => .ofString "Date"
  | .time => .ofString "Time"
  | .dateTime => .ofString "DateTime"
  | .timestamp => .ofString "Timestamp"
  | .string => .ofString "String"
  | .utf8String => .ofString "Utf8String"
  | .utf8Char => .ofString "Utf8Char"
  | .bareList => .ofChoice "List" .null
  | .list item => .ofChoice "List" item.toJson
  | .bareSet => .ofChoice "Set" .null
  | .set item => .ofChoice "Set" item.toJson
  | .tuple items => .ofChoice "Tuple" (.list (toJsonList items))
  | .bareMap => .ofChoice "Map" .null
  | .map key value => .ofChoice "Map" (.list [key.toJson, value.toJson])
  | .null => .ofString "Null"
  | .any => .ofString "Any"

def toJsonList : List DataType → List Value
  | [] => []
  | item :: items => item.toJson :: toJsonList items

end

/-- The types without parts, which are written as their names. -/
def named : List (String × DataType) :=
  [("Boolean", .boolean), ("Date", .date), ("Time", .time), ("DateTime", .dateTime),
    ("Timestamp", .timestamp), ("String", .string), ("Utf8String", .utf8String),
    ("Utf8Char", .utf8Char), ("Null", .null), ("Any", .any)]

def ofName? (name : String) : Option DataType :=
  (named.find? (·.1 == name)).map (·.2)

/-- The signedness and size of an integer type. -/
def ofIntFields? (depth : Nat) (v : Value) : Option DataType := do
  let depth ← enter? depth
  match ← fields? ["signed", "width"] v with
  | [some signed, some width] =>
    return .int (← bool? signed) (← oneOf? IntWidth.all IntWidth.name depth width)
  | _ => none

/-- The size of a floating-point or complex type. -/
def ofWidthField? {α : Type} (all : List α) (nameOf : α → String) (make : α → DataType)
    (depth : Nat) (v : Value) : Option DataType := do
  let depth ← enter? depth
  match ← fields? ["width"] v with
  | [some width] => return make (← oneOf? all nameOf depth width)
  | _ => none

/-- The map type with a type of keys and a type of values. -/
def ofParameters? : List DataType → Option DataType
  | [key, value] => some (.map key value)
  | _ => none

/-- The type of a choice by its name and its contents. These are read as a type or as the
types of a list, with the levels that remain for them. -/
def ofChoice? (depth : Nat) (content : Value) (item? : (depth : Nat) → Option DataType)
    (items? : (depth : Nat) → Option (List DataType)) : (name : String) → Option DataType
  | "Int" => ofIntFields? depth content
  | "Float" => ofWidthField? FloatWidth.all FloatWidth.name .float depth content
  | "Complex" => ofWidthField? ComplexWidth.all ComplexWidth.name .complex depth content
  | "List" =>
    match content with
    | .null => some .bareList
    | _ => (item? depth).map .list
  | "Set" =>
    match content with
    | .null => some .bareSet
    | _ => (item? depth).map .set
  | "Tuple" => ((enter? depth).bind items?).map .tuple
  | "Map" =>
    match content with
    | .null => some .bareMap
    | _ => ((enter? depth).bind items?).bind ofParameters?
  | name =>
    match content with
    | .null => ofName? name
    | _ => none

mutual

/-- Reads a type nested at most `depth` levels deep. -/
def ofJson? (depth : Nat) : Value → Option DataType
  | .string pieces => (stringOf? pieces).bind ofName?
  | .object [(key, content)] => do
    let depth ← enter? depth
    let name ← stringOf? key
    ofChoice? depth content (fun depth => ofJson? depth content)
      (fun depth => ofItems? depth content) name
  | _ => none

/-- The types in a list. -/
def ofItems? (depth : Nat) : Value → Option (List DataType)
  | .list items => ofJsonList? depth items
  | _ => none

def ofJsonList? (depth : Nat) : List Value → Option (List DataType)
  | [] => some []
  | item :: items => return (← ofJson? depth item) :: (← ofJsonList? depth items)

end

end DataType

end TypedSyntax
