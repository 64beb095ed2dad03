import TypedSyntax.Kind
import TypedSyntax.Literal
import TypedSyntax.Operator

/-!
# Errors

The causes for which an operation is refused, and the text of each.
-/

namespace TypedSyntax

/-- Types that do not fit an operation. -/
inductive TypeError where
  | nonNumeric (type : DataType)
  | nonBoolean (type : DataType)
  | nonInteger (type : DataType)
  | notIterable (type : DataType)
  | incompatible (op : BinaryOperator) (lhs rhs : DataType)
deriving DecidableEq, Repr

def TypeError.message : TypeError → String
  | .nonNumeric type => "expected a numeric type, got " ++ type.key
  | .nonBoolean type => "expected a boolean type, got " ++ type.key
  | .nonInteger type => "expected an integer type, got " ++ type.key
  | .notIterable type => type.key ++ " is not iterable"
  | .incompatible op lhs rhs =>
    "operator `" ++ op.token ++ "` cannot combine " ++ lhs.key ++ " and " ++ rhs.key

/-- A node reference that a tree cannot resolve. -/
inductive NodeError where
  | foreign
  | missing (index : Nat)
deriving DecidableEq, Repr

def NodeError.message : NodeError → String
  | .foreign => "node id belongs to another tree"
  | .missing index => "node id " ++ toString index ++ " is out of range"

/-- The slots that ask for a certain kind of node. -/
inductive Slot where
  | block
  | target
  | variable
  | arguments
  | prototype
  | function
  | body
  | consequent
  | alternative
  | generators
  | attributes
  | methods
deriving DecidableEq, Repr

def Slot.name : Slot → String
  | .block => "block"
  | .target => "target"
  | .variable => "variable"
  | .arguments => "args"
  | .prototype => "prototype"
  | .function => "function"
  | .body => "body"
  | .consequent => "then"
  | .alternative => "else"
  | .generators => "generators"
  | .attributes => "attributes"
  | .methods => "methods"

/-- What a slot asks for. -/
inductive Expectation where
  | kind (kind : Kind)
  | statement
  | declarationWithoutValue
deriving DecidableEq, Repr

def Expectation.text : Expectation → String
  | .kind k => k.name
  | .statement => "statement"
  | .declarationWithoutValue => "VariableDeclaration without a value"

/-- The position of an operator. -/
inductive OperatorPosition where
  | unary
  | binary
deriving DecidableEq, Repr

def OperatorPosition.name : OperatorPosition → String
  | .unary => "unary"
  | .binary => "binary"

/-- Why a node cannot be built or appended. -/
inductive ConstructionError where
  | type (error : TypeError)
  | node (error : NodeError)
  | typeMismatch (name : String) (declared found : DataType)
  | unknownOperator (token : String) (position : OperatorPosition)
  | alreadyAttached (kind : Kind)
  | notAnExpression (kind : Kind)
  | unexpectedKind (slot : Slot) (expected : Expectation) (found : Kind)
  | invalidLiteral (type : DataType) (fault : LiteralFault)
  | notABlock (kind : Kind)
  | arity (name : String) (expected found : Nat)
  | missingGenerator
  | cycle (kind : Kind)
deriving DecidableEq, Repr

def ConstructionError.message : ConstructionError → String
  | .type e => e.message
  | .node e => e.message
  | .typeMismatch name declared found =>
    "`" ++ name ++ "` is declared as " ++ declared.key ++ " but its value is " ++ found.key
  | .unknownOperator token position =>
    "`" ++ token ++ "` is not a valid " ++ position.name ++ " operator"
  | .alreadyAttached kind => kind.name ++ " node is already attached to a parent"
  | .notAnExpression kind => kind.name ++ " node cannot be used as an expression"
  | .unexpectedKind slot expected found =>
    "expected " ++ expected.text ++ " in `" ++ slot.name ++ "`, got " ++ found.name
  | .invalidLiteral t fault => "invalid " ++ t.key ++ " literal: " ++ fault.message
  | .notABlock kind => kind.name ++ " node is not a block"
  | .arity name expected found =>
    "`" ++ name ++ "` takes " ++ toString expected ++ " argument(s), got " ++ toString found
  | .missingGenerator => "a comprehension needs at least one generator clause"
  | .cycle kind => "appending would make " ++ kind.name ++ " node its own ancestor"

/-- Why a name or a scope operation is refused. -/
inductive ScopeError where
  | duplicateBinding (name scope : String)
  | unboundName (name : String)
  | rootScope
  | guardedScope (name : String)
deriving DecidableEq, Repr

def ScopeError.message : ScopeError → String
  | .duplicateBinding name scope => "`" ++ name ++ "` is already defined in scope `" ++ scope ++ "`"
  | .unboundName name => "name `" ++ name ++ "` is not defined"
  | .rootScope => "the root scope cannot be popped"
  | .guardedScope name => "scope `" ++ name ++ "` is held by a guard and cannot be popped"

/-- Why a subtree has no rendering. -/
inductive RenderError where
  | unsupportedNode (kind : Kind)
  | node (error : NodeError)
deriving DecidableEq, Repr

def RenderError.message : RenderError → String
  | .unsupportedNode kind => "no rendering rule for " ++ kind.name ++ " nodes"
  | .node e => e.message

/-- Why options cannot be loaded. -/
inductive ConfigError where
  | unreadable
  | malformed
deriving DecidableEq, Repr

end TypedSyntax
