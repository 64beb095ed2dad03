/-!
# Node kinds

The 26 kinds of nodes and their names.
-/

namespace TypedSyntax

inductive Kind where
  | literal
  | collection
  | mapping
  | variable
  | declaration
  | assignment
  | unary
  | binary
  | cast
  | block
  | module
  | argument
  | prototype
  | function
  | call
  | returning
  | conditional
  | whileLoop
  | forLoop
  | rangeLoop
  | breaking
  | continuing
  | clause
  | comprehension
  | classDecl
  | classDef
deriving DecidableEq, Repr

namespace Kind

def name : Kind → String
  | .literal => "Literal"
  | .collection => "CollectionLiteral"
  | .mapping => "MapLiteral"
  | .variable => "Variable"
  | .declaration => "VariableDeclaration"
  | .assignment => "VariableAssignment"
  | .unary => "UnaryOp"
  | .binary => "BinaryOp"
  | .cast => "TypeCast"
  | .block => "Block"
  | .module => "Module"
  | .argument => "Argument"
  | .prototype => "FunctionPrototype"
  | .function => "FunctionDef"
  | .call => "FunctionCall"
  | .returning => "FunctionReturn"
  | .conditional => "IfStmt"
  | .whileLoop => "WhileStmt"
  | .forLoop => "ForStmt"
  | .rangeLoop => "ForRangeStmt"
  | .breaking => "Break"
  | .continuing => "Continue"
  | .clause => "ComprehensionClause"
  | .comprehension => "Comprehension"
  | .classDecl => "ClassDecl"
  | .classDef => "ClassDef"

def all : List Kind :=
  [.literal, .collection, .mapping, .variable, .declaration, .assignment, .unary,
    .binary, .cast, .block, .module, .argument, .prototype, .function, .call,
    .returning, .conditional, .whileLoop, .forLoop, .rangeLoop, .breaking,
    .continuing, .clause, .comprehension, .classDecl, .classDef]

def ofName? (name : String) : Option Kind :=
  all.find? (·.name == name)

instance : ToString Kind := ⟨name⟩

theorem ofName?_name (k : Kind) : ofName? k.name = some k := by
  cases k <;> decide

end Kind

end TypedSyntax
