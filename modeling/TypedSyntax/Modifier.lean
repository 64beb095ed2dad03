/-!
# Declaration modifiers

Visibility, scope kind and mutability of declared names.
-/

namespace TypedSyntax

inductive Visibility where
  | «public»
  | «private»
  | «protected»
deriving DecidableEq, Repr

inductive ScopeKind where
  | «global»
  | «local»
deriving DecidableEq, Repr

inductive Mutability where
  | constant
  | mutable
deriving DecidableEq, Repr

namespace Visibility

def all : List Visibility := [.«public», .«private», .«protected»]

def name : Visibility → String
  | .«public» => "public"
  | .«private» => "private"
  | .«protected» => "protected"

/-- The sign written before the name of a class. -/
def marker : Visibility → Char
  | .«public» => '+'
  | .«private» => '-'
  | .«protected» => '#'

instance : ToString Visibility := ⟨name⟩

end Visibility

namespace ScopeKind

def all : List ScopeKind := [.«global», .«local»]

def name : ScopeKind → String
  | .«global» => "global"
  | .«local» => "local"

instance : ToString ScopeKind := ⟨name⟩

end ScopeKind

namespace Mutability

def all : List Mutability := [.constant, .mutable]

def name : Mutability → String
  | .constant => "constant"
  | .mutable => "mutable"

instance : ToString Mutability := ⟨name⟩

end Mutability

end TypedSyntax
