/-!
# Operators

The unary and binary operators and their tokens. A token belongs to at most
one operator of each position, so `ofToken?` inverts `token`.
-/

namespace TypedSyntax

/-- What an operator computes with. -/
inductive OperatorClass where
  | arithmetic
  | comparison
  | logical
deriving DecidableEq, Repr

inductive BinaryOperator where
  | add
  | sub
  | mul
  | div
  | floorDiv
  | mod
  | pow
  | eq
  | ne
  | lt
  | le
  | gt
  | ge
  | and
  | or
  | xor
deriving DecidableEq, Repr

inductive UnaryOperator where
  | neg
  | pos
  | not
  | bitNot
deriving DecidableEq, Repr

namespace BinaryOperator

/-- Every binary operator, in the order in which tokens are tried. -/
def all : List BinaryOperator :=
  [.add, .sub, .mul, .div, .floorDiv, .mod, .pow, .eq, .ne, .lt, .le, .gt, .ge,
    .and, .or, .xor]

def token : BinaryOperator → String
  | .add => "+"
  | .sub => "-"
  | .mul => "*"
  | .div => "/"
  | .floorDiv => "//"
  | .mod => "%"
  | .pow => "**"
  | .eq => "=="
  | .ne => "!="
  | .lt => "<"
  | .le => "<="
  | .gt => ">"
  | .ge => ">="
  | .and => "and"
  | .or => "or"
  | .xor => "xor"

/-- The operator's name in data. -/
def name : BinaryOperator → String
  | .add => "Add"
  | .sub => "Sub"
  | .mul => "Mul"
  | .div => "Div"
  | .floorDiv => "FloorDiv"
  | .mod => "Mod"
  | .pow => "Pow"
  | .eq => "Eq"
  | .ne => "Ne"
  | .lt => "Lt"
  | .le => "Le"
  | .gt => "Gt"
  | .ge => "Ge"
  | .and => "And"
  | .or => "Or"
  | .xor => "Xor"

def operatorClass : BinaryOperator → OperatorClass
  | .add | .sub | .mul | .div | .floorDiv | .mod | .pow => .arithmetic
  | .eq | .ne | .lt | .le | .gt | .ge => .comparison
  | .and | .or | .xor => .logical

def ofToken? (token : String) : Option BinaryOperator :=
  all.find? (·.token == token)

instance : ToString BinaryOperator := ⟨token⟩

theorem ofToken?_token (op : BinaryOperator) : ofToken? op.token = some op := by
  cases op <;> decide

end BinaryOperator

namespace UnaryOperator

/-- Every unary operator, in the order in which tokens are tried. -/
def all : List UnaryOperator :=
  [.neg, .pos, .not, .bitNot]

def token : UnaryOperator → String
  | .neg => "-"
  | .pos => "+"
  | .not => "not"
  | .bitNot => "~"

/-- The operator's name in data. -/
def name : UnaryOperator → String
  | .neg => "Neg"
  | .pos => "Pos"
  | .not => "Not"
  | .bitNot => "BitNot"

def ofToken? (token : String) : Option UnaryOperator :=
  all.find? (·.token == token)

instance : ToString UnaryOperator := ⟨token⟩

theorem ofToken?_token (op : UnaryOperator) : ofToken? op.token = some op := by
  cases op <;> decide

end UnaryOperator

end TypedSyntax
