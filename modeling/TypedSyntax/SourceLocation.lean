/-!
# Source locations

A line and a column of 32 bits each. Line 0 stands for an unknown place.
-/

namespace TypedSyntax

structure SourceLocation where
  line : UInt32
  column : UInt32
deriving DecidableEq, Repr

namespace SourceLocation

/-- The unknown place. -/
def unknown : SourceLocation := ⟨0, 0⟩

instance : Inhabited SourceLocation := ⟨unknown⟩

def isKnown (loc : SourceLocation) : Bool :=
  loc.line != 0

def text (loc : SourceLocation) : String :=
  if loc.isKnown then
    toString loc.line.toNat ++ ":" ++ toString loc.column.toNat
  else
    "<unknown>"

instance : ToString SourceLocation := ⟨text⟩

end SourceLocation

end TypedSyntax
