import TypedSyntax.Tree.Draft
import TypedSyntax.Typing

/-!
# Checks of drafts

`Tree.payload?` checks a draft against the nodes of a tree and returns the
payload of the node to build. The checks only read the tree; of several faults
the first in the order of the checks is the one reported.
-/

namespace TypedSyntax.Tree

/-- The outcome of a check. -/
abbrev Checked := Except ConstructionError

/-- An answer of the tree inside a check. -/
def look {α : Type} : Except NodeError α → Checked α
  | .ok a => .ok a
  | .error e => .error (.node e)

/-- An answer of a typing rule inside a check. -/
def typed {α : Type} : Except TypeError α → Checked α
  | .ok a => .ok a
  | .error e => .error (.type e)

variable (tree : Tree)

/-- The type of a node that has to be an expression. -/
def expressionType (id : NodeId) : Checked DataType := do
  let node ← look (tree.node id)
  match node.payload.valueType? with
  | some type => return type
  | none => .error (.notAnExpression node.kind)

def expressionTypes (ids : List NodeId) : Checked (List DataType) :=
  ids.mapM (expressionType tree)

def expectKind (slot : Slot) (kind : Kind) (id : NodeId) : Checked Unit := do
  let found ← look (tree.kind id)
  if found = kind then return ()
  else .error (.unexpectedKind slot (.kind kind) found)

def expectCondition (id : NodeId) : Checked Unit := do
  let type ← expressionType tree id
  if type.isBoolean || type.isAny then return ()
  else .error (.type (.nonBoolean type))

def expectInteger (id : NodeId) : Checked DataType := do
  let type ← expressionType tree id
  if type.isInteger || type.isAny then return type
  else .error (.type (.nonInteger type))

/-- Checks that a binding of a declared type may hold a value of a type. -/
def expectAccepted (name : String) (declared found : DataType) : Checked Unit :=
  if declared.accepts found then .ok ()
  else .error (.typeMismatch name declared found)

/-- Checks a loop target against the type of the elements. -/
def expectTarget (id : NodeId) (element : DataType) : Checked Unit := do
  match ← look (tree.payload id) with
  | .variable name type => expectAccepted name type element
  | .declaration declared none => expectAccepted declared.name declared.type element
  | other => .error (.unexpectedKind .target (.kind .variable) other.kind)

/-- The kinds that may stand in a block or module. -/
def isStatement : Kind → Bool
  | .module | .argument | .prototype | .clause => false
  | _ => true

def expectStatementKind (kind : Kind) : Checked Unit :=
  if isStatement kind then .ok ()
  else .error (.unexpectedKind .block .statement kind)

def expectStatement (id : NodeId) : Checked Unit := do
  expectStatementKind (← look (tree.kind id))

/-- Checks an optional value of a declaration or argument. -/
def expectInitial (name : String) (declared : DataType) : Option NodeId → Checked Unit
  | none => .ok ()
  | some value => do expectAccepted name declared (← expressionType tree value)

/-- The signature and arguments of the prototype that a callee names, itself
or through its definition. -/
def calleePrototype (callee : NodeId) : Checked (Signature × List NodeId) := do
  match ← look (tree.payload callee) with
  | .prototype signature arguments => return (signature, arguments)
  | .function head _ =>
    match ← look (tree.payload head) with
    | .prototype signature arguments => return (signature, arguments)
    | other => .error (.unexpectedKind .prototype (.kind .prototype) other.kind)
  | other => .error (.unexpectedKind .function (.kind .function) other.kind)

/-- The parameter of an argument node, and whether it has a default. -/
def parameter? (id : NodeId) : Checked (Option (Parameter × Bool)) := do
  match ← look (tree.payload id) with
  | .argument parameter default => return some (parameter, default.isSome)
  | _ => return none

/-- Checks the arguments of a call by position. -/
def expectArguments (parameters : List (Parameter × Bool)) (arguments : List NodeId) :
    Checked Unit :=
  (parameters.zip arguments).forM fun ((parameter, _), argument) => do
    expectAccepted parameter.name parameter.type (← expressionType tree argument)

/-- Checks a call of a function of this tree. -/
def callPayload (callee : NodeId) (arguments : List NodeId) : Checked (Payload NodeId) := do
  let (signature, declared) ← calleePrototype tree callee
  let parameters := (← declared.mapM (parameter? tree)).filterMap fun found => found
  let required := parameters.countP fun (_, hasDefault) => !hasDefault
  if arguments.length < required ∨ parameters.length < arguments.length then
    .error (.arity signature.name parameters.length arguments.length)
  else do
    expectArguments tree parameters arguments
    return .call signature.name arguments signature.returnType

/-- Checks a counted loop. -/
def rangePayload (counter start stop : NodeId) (step : Option NodeId) (body : NodeId) :
    Checked (Payload NodeId) := do
  match ← look (tree.payload counter) with
  | .declaration declared none =>
    if !declared.type.isInteger && !declared.type.isAny then
      .error (.type (.nonInteger declared.type))
    else do
      let first ← expectInteger tree start
      let last ← expectInteger tree stop
      let steps ← step.toList.mapM (expectInteger tree)
      (first :: last :: steps).forM (expectAccepted declared.name declared.type)
      expectKind tree .body .block body
      return .rangeLoop counter start stop step body
  | other => .error (.unexpectedKind .variable .declarationWithoutValue other.kind)

/-- Checks the header of a loop or clause over the elements of a value. -/
def expectIteration (target iterable : NodeId) (conditions : List NodeId) : Checked Unit := do
  let element ← typed (← expressionType tree iterable).element
  expectTarget tree target element
  conditions.forM (expectCondition tree)

def collectionType (kind : CollectionKind) (types : List DataType) : DataType :=
  match kind, DataType.common? types with
  | .list, some item => .list item
  | .list, none => .bareList
  | .set, some item => .set item
  | .set, none => .bareSet
  | .tuple, _ => .tuple types

def mappingType (keys values : List DataType) : DataType :=
  match DataType.common? keys, DataType.common? values with
  | some key, some value => .map key value
  | _, _ => .bareMap

def comprehensionType (kind : ComprehensionKind) (element : DataType) : DataType :=
  match kind with
  | .list => .list element
  | .set => .set element
  | .generator => .any

/-- Checks a draft. -/
def payload? (draft : Draft) : Checked (Payload NodeId) :=
  match draft with
  | .plain literal => .ok (.literal literal.value literal.type)
  | .variable name type => .ok (.variable name type)
  | .breaking => .ok .breaking
  | .continuing => .ok .continuing
  | .literal value type =>
    match value.check type with
    | .ok () => .ok (.literal value type)
    | .error fault => .error (.invalidLiteral type fault)
  | .collection kind elements => do
    return .collection kind elements (collectionType kind (← expressionTypes tree elements))
  | .mapping entries => do
    let types ← entries.mapM fun (key, value) =>
      return (← expressionType tree key, ← expressionType tree value)
    return .mapping entries (mappingType (types.map (·.1)) (types.map (·.2)))
  | .declaration declared value => do
    expectInitial tree declared.name declared.type value
    return .declaration declared value
  | .assignment name value => do
    let _ ← expressionType tree value
    return .assignment name value
  | .unary token operand =>
    match UnaryOperator.ofToken? token with
    | none => .error (.unknownOperator token .unary)
    | some op => do
      return .unary op operand (← typed (op.resultType (← expressionType tree operand)))
  | .binary token lhs rhs =>
    match BinaryOperator.ofToken? token with
    | none => .error (.unknownOperator token .binary)
    | some op => do
      let left ← expressionType tree lhs
      let right ← expressionType tree rhs
      return .binary op lhs rhs (← typed (op.resultType left right))
  | .cast operand target => do
    let _ ← expressionType tree operand
    return .cast operand target
  | .block name nodes => do
    nodes.forM (expectStatement tree)
    return .block name nodes
  | .module name nodes => do
    nodes.forM (expectStatement tree)
    return .module name nodes
  | .argument parameter default => do
    expectInitial tree parameter.name parameter.type default
    return .argument parameter default
  | .prototype signature arguments => do
    arguments.forM (expectKind tree .arguments .argument)
    return .prototype signature arguments
  | .function head body => do
    expectKind tree .prototype .prototype head
    expectKind tree .body .block body
    return .function head body
  | .call callee arguments => callPayload tree callee arguments
  | .callNamed callee arguments type => do
    let _ ← expressionTypes tree arguments
    return .call callee arguments type
  | .returning value => do
    value.toList.forM fun value => do let _ ← expressionType tree value
    return .returning value
  | .conditional condition consequent alternative => do
    expectCondition tree condition
    expectKind tree .consequent .block consequent
    alternative.toList.forM (expectKind tree .alternative .block)
    return .conditional condition consequent alternative
  | .whileLoop condition body => do
    expectCondition tree condition
    expectKind tree .body .block body
    return .whileLoop condition body
  | .forLoop target iterable conditions body => do
    expectIteration tree target iterable conditions
    expectKind tree .body .block body
    return .forLoop target iterable conditions body
  | .rangeLoop counter start stop step body => rangePayload tree counter start stop step body
  | .clause target iterable conditions isAsync => do
    expectIteration tree target iterable conditions
    return .clause target iterable conditions isAsync
  | .comprehension kind element generators =>
    if generators.isEmpty then .error .missingGenerator
    else do
      generators.forM (expectKind tree .generators .clause)
      let type ← expressionType tree element
      return .comprehension kind element generators (comprehensionType kind type)
  | .classDecl header bases decorators => do
    let _ ← expressionTypes tree (bases ++ decorators)
    return .classDecl header bases decorators
  | .classDef header bases decorators attributes methods => do
    let _ ← expressionTypes tree (bases ++ decorators)
    attributes.forM (expectKind tree .attributes .declaration)
    methods.forM (expectKind tree .methods .function)
    return .classDef header bases decorators attributes methods

end TypedSyntax.Tree
