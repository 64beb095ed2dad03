import TypedSyntax.Json.Printer
import TypedSyntax.Json.Record
import TypedSyntax.Modifier
import TypedSyntax.Operator
import TypedSyntax.SourceLocation

/-!
# JSON forms of attributes

Locations are records; modifiers and operators are choices without contents.
-/

namespace TypedSyntax

open Json

namespace SourceLocation

def toJson (loc : SourceLocation) : Value :=
  .ofRecord [("line", .ofNat loc.line.toNat), ("column", .ofNat loc.column.toNat)]

def ofJson? (depth : Nat) (v : Value) : Option SourceLocation := do
  let _ ← enter? depth
  match ← fields? ["line", "column"] v with
  | [some line, some column] =>
    return ⟨.ofNat (← natBelow? 0x100000000 line), .ofNat (← natBelow? 0x100000000 column)⟩
  | _ => none

end SourceLocation

def Visibility.toJson (v : Visibility) : Value := .ofString v.name

def Visibility.ofJson? : Nat → Value → Option Visibility := oneOf? Visibility.all Visibility.name

def ScopeKind.toJson (s : ScopeKind) : Value := .ofString s.name

def ScopeKind.ofJson? : Nat → Value → Option ScopeKind := oneOf? ScopeKind.all ScopeKind.name

def Mutability.toJson (m : Mutability) : Value := .ofString m.name

def Mutability.ofJson? : Nat → Value → Option Mutability := oneOf? Mutability.all Mutability.name

def BinaryOperator.toJson (op : BinaryOperator) : Value := .ofString op.name

def BinaryOperator.ofJson? : Nat → Value → Option BinaryOperator :=
  oneOf? BinaryOperator.all BinaryOperator.name

def UnaryOperator.toJson (op : UnaryOperator) : Value := .ofString op.name

def UnaryOperator.ofJson? : Nat → Value → Option UnaryOperator :=
  oneOf? UnaryOperator.all UnaryOperator.name

end TypedSyntax
