import TypedSyntax.Kind
import TypedSyntax.Literal
import TypedSyntax.Modifier
import TypedSyntax.Operator

/-!
# Node payloads

What a node of each kind holds: its attributes, and its child slots filled
with references of some type. `children` lists the references slot by slot,
`map` replaces them.
-/

namespace TypedSyntax

inductive CollectionKind where
  | list
  | set
  | tuple
deriving DecidableEq, Repr

inductive ComprehensionKind where
  | list
  | set
  | generator
deriving DecidableEq, Repr

/-- The attributes of a declared variable. -/
structure Declaration where
  name : String
  type : DataType
  mutability : Mutability
  visibility : Visibility
  scope : ScopeKind
deriving DecidableEq, Repr

/-- The attributes of a function's argument. -/
structure Parameter where
  name : String
  type : DataType
  mutability : Mutability
deriving DecidableEq, Repr

/-- The attributes of a function's prototype. -/
structure Signature where
  name : String
  returnType : DataType
  scope : ScopeKind
  visibility : Visibility
  mutability : Mutability
deriving DecidableEq, Repr

/-- The attributes of a class. -/
structure ClassHeader where
  name : String
  isAbstract : Bool
  visibility : Visibility
deriving DecidableEq, Repr

/-- The contents of a node whose children are references of type `α`. -/
inductive Payload (α : Type) where
  | literal (value : LiteralValue) (type : DataType)
  | collection (kind : CollectionKind) (elements : List α) (type : DataType)
  | mapping (entries : List (α × α)) (type : DataType)
  | variable (name : String) (type : DataType)
  | declaration (declared : Declaration) (value : Option α)
  | assignment (name : String) (value : α)
  | unary (op : UnaryOperator) (operand : α) (type : DataType)
  | binary (op : BinaryOperator) (lhs rhs : α) (type : DataType)
  | cast (operand : α) (target : DataType)
  | block (name : String) (nodes : List α)
  | module (name : String) (nodes : List α)
  | argument (parameter : Parameter) (default : Option α)
  | prototype (signature : Signature) (arguments : List α)
  | function (head body : α)
  | call (callee : String) (arguments : List α) (type : DataType)
  | returning (value : Option α)
  | conditional (condition consequent : α) (alternative : Option α)
  | whileLoop (condition body : α)
  | forLoop (target iterable : α) (conditions : List α) (body : α)
  | rangeLoop (counter start stop : α) (step : Option α) (body : α)
  | breaking
  | continuing
  | clause (target iterable : α) (conditions : List α) (isAsync : Bool)
  | comprehension (kind : ComprehensionKind) (element : α) (generators : List α)
      (type : DataType)
  | classDecl (header : ClassHeader) (bases decorators : List α)
  | classDef (header : ClassHeader) (bases decorators attributes methods : List α)
deriving DecidableEq, Repr

namespace Payload

variable {α β : Type}

def kind : Payload α → Kind
  | .literal .. => .literal
  | .collection .. => .collection
  | .mapping .. => .mapping
  | .variable .. => .variable
  | .declaration .. => .declaration
  | .assignment .. => .assignment
  | .unary .. => .unary
  | .binary .. => .binary
  | .cast .. => .cast
  | .block .. => .block
  | .module .. => .module
  | .argument .. => .argument
  | .prototype .. => .prototype
  | .function .. => .function
  | .call .. => .call
  | .returning .. => .returning
  | .conditional .. => .conditional
  | .whileLoop .. => .whileLoop
  | .forLoop .. => .forLoop
  | .rangeLoop .. => .rangeLoop
  | .breaking => .breaking
  | .continuing => .continuing
  | .clause .. => .clause
  | .comprehension .. => .comprehension
  | .classDecl .. => .classDecl
  | .classDef .. => .classDef

/-- The type of the value of an expression. Only expressions have one. -/
def valueType? : Payload α → Option DataType
  | .literal _ type => some type
  | .collection _ _ type => some type
  | .mapping _ type => some type
  | .variable _ type => some type
  | .unary _ _ type => some type
  | .binary _ _ _ type => some type
  | .cast _ target => some target
  | .call _ _ type => some type
  | .comprehension _ _ _ type => some type
  | _ => none

/-- The references in all slots, in the order of the slots. -/
def children : Payload α → List α
  | .literal .. | .variable .. | .breaking | .continuing => []
  | .collection _ elements _ => elements
  | .mapping entries _ => entries.flatMap fun (key, value) => [key, value]
  | .declaration _ value => value.toList
  | .assignment _ value => [value]
  | .unary _ operand _ => [operand]
  | .binary _ lhs rhs _ => [lhs, rhs]
  | .cast operand _ => [operand]
  | .block _ nodes => nodes
  | .module _ nodes => nodes
  | .argument _ default => default.toList
  | .prototype _ arguments => arguments
  | .function head body => [head, body]
  | .call _ arguments _ => arguments
  | .returning value => value.toList
  | .conditional condition consequent alternative =>
    condition :: consequent :: alternative.toList
  | .whileLoop condition body => [condition, body]
  | .forLoop target iterable conditions body => target :: iterable :: (conditions ++ [body])
  | .rangeLoop counter start stop step body =>
    counter :: start :: stop :: (step.toList ++ [body])
  | .clause target iterable conditions _ => target :: iterable :: conditions
  | .comprehension _ element generators _ => element :: generators
  | .classDecl _ bases decorators => bases ++ decorators
  | .classDef _ bases decorators attributes methods =>
    bases ++ decorators ++ attributes ++ methods

/-- Replaces every reference. -/
def map (f : α → β) : Payload α → Payload β
  | .literal value type => .literal value type
  | .collection kind elements type => .collection kind (elements.map f) type
  | .mapping entries type => .mapping (entries.map fun (key, value) => (f key, f value)) type
  | .variable name type => .variable name type
  | .declaration declared value => .declaration declared (value.map f)
  | .assignment name value => .assignment name (f value)
  | .unary op operand type => .unary op (f operand) type
  | .binary op lhs rhs type => .binary op (f lhs) (f rhs) type
  | .cast operand target => .cast (f operand) target
  | .block name nodes => .block name (nodes.map f)
  | .module name nodes => .module name (nodes.map f)
  | .argument parameter default => .argument parameter (default.map f)
  | .prototype signature arguments => .prototype signature (arguments.map f)
  | .function head body => .function (f head) (f body)
  | .call callee arguments type => .call callee (arguments.map f) type
  | .returning value => .returning (value.map f)
  | .conditional condition consequent alternative =>
    .conditional (f condition) (f consequent) (alternative.map f)
  | .whileLoop condition body => .whileLoop (f condition) (f body)
  | .forLoop target iterable conditions body =>
    .forLoop (f target) (f iterable) (conditions.map f) (f body)
  | .rangeLoop counter start stop step body =>
    .rangeLoop (f counter) (f start) (f stop) (step.map f) (f body)
  | .breaking => .breaking
  | .continuing => .continuing
  | .clause target iterable conditions isAsync =>
    .clause (f target) (f iterable) (conditions.map f) isAsync
  | .comprehension kind element generators type =>
    .comprehension kind (f element) (generators.map f) type
  | .classDecl header bases decorators => .classDecl header (bases.map f) (decorators.map f)
  | .classDef header bases decorators attributes methods =>
    .classDef header (bases.map f) (decorators.map f) (attributes.map f) (methods.map f)

/-- Replaces every reference by the result of a function that may fail; the
references are visited in the order of the slots. -/
def traverse {m : Type → Type} [Monad m] (f : α → m β) : Payload α → m (Payload β)
  | .literal value type => return .literal value type
  | .collection kind elements type => return .collection kind (← elements.mapM f) type
  | .mapping entries type =>
    return .mapping (← entries.mapM fun (key, value) => return (← f key, ← f value)) type
  | .variable name type => return .variable name type
  | .declaration declared value => return .declaration declared (← value.mapM f)
  | .assignment name value => return .assignment name (← f value)
  | .unary op operand type => return .unary op (← f operand) type
  | .binary op lhs rhs type => return .binary op (← f lhs) (← f rhs) type
  | .cast operand target => return .cast (← f operand) target
  | .block name nodes => return .block name (← nodes.mapM f)
  | .module name nodes => return .module name (← nodes.mapM f)
  | .argument parameter default => return .argument parameter (← default.mapM f)
  | .prototype signature arguments => return .prototype signature (← arguments.mapM f)
  | .function head body => return .function (← f head) (← f body)
  | .call callee arguments type => return .call callee (← arguments.mapM f) type
  | .returning value => return .returning (← value.mapM f)
  | .conditional condition consequent alternative =>
    return .conditional (← f condition) (← f consequent) (← alternative.mapM f)
  | .whileLoop condition body => return .whileLoop (← f condition) (← f body)
  | .forLoop target iterable conditions body =>
    return .forLoop (← f target) (← f iterable) (← conditions.mapM f) (← f body)
  | .rangeLoop counter start stop step body =>
    return .rangeLoop (← f counter) (← f start) (← f stop) (← step.mapM f) (← f body)
  | .breaking => return .breaking
  | .continuing => return .continuing
  | .clause target iterable conditions isAsync =>
    return .clause (← f target) (← f iterable) (← conditions.mapM f) isAsync
  | .comprehension kind element generators type =>
    return .comprehension kind (← f element) (← generators.mapM f) type
  | .classDecl header bases decorators =>
    return .classDecl header (← bases.mapM f) (← decorators.mapM f)
  | .classDef header bases decorators attributes methods =>
    return .classDef header (← bases.mapM f) (← decorators.mapM f) (← attributes.mapM f)
      (← methods.mapM f)

/-- Adds a reference at the end of the statements of a block or module. -/
def addStatement (child : α) : Payload α → Payload α
  | .block name nodes => .block name (nodes ++ [child])
  | .module name nodes => .module name (nodes ++ [child])
  | other => other

theorem kind_map (f : α → β) (p : Payload α) : (p.map f).kind = p.kind := by
  cases p <;> rfl

theorem valueType?_map (f : α → β) (p : Payload α) :
    (p.map f).valueType? = p.valueType? := by
  cases p <;> rfl

theorem children_map (f : α → β) (p : Payload α) :
    (p.map f).children = p.children.map f := by
  cases p <;> simp [map, children, List.flatMap_map, List.map_flatMap, Option.toList_map]

end Payload

end TypedSyntax
