import TypedSyntax.Datum
import TypedSyntax.Term

/-!
# Structural export

A node is exported as a map of one entry: its tag, made of its kind and
attributes, over its content, made of the exports of its children. In full
detail the instance tag joins the key and metadata stand beside the content.
-/

namespace TypedSyntax

/-- How much an export shows. -/
inductive Detail where
  | full
  | simplified
deriving DecidableEq, Repr

namespace LiteralValue

/-- An integer as a number, or as its digits where 64 bits cannot hold it. -/
def integerDatum (i : Int) : Datum :=
  if Datum.fitsWord i then .int i else .text (toString i)

/-- A double as a number, or as its name where it is not finite. -/
def floatDatum (x : Double) : Datum :=
  if x.isFinite then .float x else .text (Datum.nonFiniteName x)

def toDatum : LiteralValue → Datum
  | .bool b => .bool b
  | .int v => integerDatum v.toInt
  | .uint v => integerDatum v.toNat
  | .float x => floatDatum x
  | .complex real imag => .map [("real", floatDatum real), ("imag", floatDatum imag)]
  | .text s => .text s
  | .char c => .text c.toString
  | .temporal s => .text s

end LiteralValue

/-- A word and what stands in brackets after it. -/
def bracketed (word inner : String) : String :=
  word ++ "[" ++ inner ++ "]"

/-- The tag of a class. -/
def ClassHeader.tag (word : String) (header : ClassHeader) : String :=
  bracketed word (header.visibility.marker.toString ++ header.name ++
    if header.isAbstract then ", abstract" else "")

namespace Term

/-- The tag of a node. A function bears the name of its prototype, and has no tag
without one. -/
def tag (t : Term) : Except NodeError String :=
  match t.payload with
  | .literal _ type => return bracketed "LITERAL" type.key
  | .collection .list _ _ => return "LIST-LITERAL"
  | .collection .set _ _ => return "SET-LITERAL"
  | .collection .tuple _ _ => return "TUPLE-LITERAL"
  | .mapping .. => return "MAP-LITERAL"
  | .variable name _ => return bracketed "VARIABLE" name
  | .declaration declared _ =>
    return bracketed "VAR-DECL" (declared.name ++ ": " ++ declared.type.key)
  | .assignment name _ => return bracketed "ASSIGN" name
  | .unary op _ _ => return bracketed "UNARY" op.token
  | .binary op _ _ _ => return bracketed "BINARY" op.token
  | .cast _ target => return bracketed "CAST" target.key
  | .block name _ => return bracketed "BLOCK" name
  | .module name _ => return bracketed "MODULE" name
  | .argument parameter _ =>
    return bracketed "ARGUMENT" (parameter.name ++ ": " ++ parameter.type.key)
  | .prototype signature _ => return bracketed "PROTOTYPE" signature.name
  | .function head _ =>
    match head.payload with
    | .prototype signature _ => return bracketed "FUNCTION-DEF" signature.name
    | _ => .error (.missing head.info.id.index)
  | .call callee _ _ => return bracketed "CALL" callee
  | .returning _ => return "RETURN"
  | .conditional .. => return "IF-STMT"
  | .whileLoop .. => return "WHILE-STMT"
  | .forLoop .. => return "FOR-STMT"
  | .rangeLoop .. => return "FOR-RANGE"
  | .breaking => return "BREAK"
  | .continuing => return "CONTINUE"
  | .clause _ _ _ false => return "COMPREHENSION-CLAUSE"
  | .clause _ _ _ true => return "ASYNC-COMPREHENSION-CLAUSE"
  | .comprehension .list _ _ _ => return "LIST-COMPREHENSION"
  | .comprehension .set _ _ _ => return "SET-COMPREHENSION"
  | .comprehension .generator _ _ _ => return "GENERATOR-EXPR"
  | .classDecl header _ _ => return header.tag "CLASS-DECL"
  | .classDef header _ _ _ _ => return header.tag "CLASS-DEF"

/-- The location of a node, or -1 for an unknown line and column. -/
def locationDatum (loc : SourceLocation) : Datum :=
  if loc.isKnown then
    .map [("line", .int loc.line.toNat), ("col", .int loc.column.toNat)]
  else
    .map [("line", .int (-1)), ("col", .int (-1))]

/-- What a node holds besides its attributes and children. -/
def metadata (t : Term) : Datum :=
  .map ([
    ("loc", locationDatum t.info.loc),
    ("comment", .text t.info.comment),
    ("ref", .int t.info.tag),
    ("kind", .text t.kind.name)] ++
    (t.payload.valueType?.map fun type => ("type", Datum.text type.key)).toList)

/-- The export of a node with a given tag and content. -/
def tagged (detail : Detail) (t : Term) (tag : String) (content : Datum) : Datum :=
  match detail with
  | .simplified => .single tag content
  | .full =>
    .single (tag ++ "#" ++ toString t.info.tag)
      (.map [("content", content), ("metadata", t.metadata)])

/-- The content of a node, and its export. -/
structure Shown where
  content : Datum
  datum : Datum

/-- The content of a node, from its children. A function shows the content of its
prototype and its body. -/
def contentOf (payload : Payload Shown) : Datum :=
  let all := fun (children : List Shown) => Datum.list (children.map (·.datum))
  let optional := fun (child : Option Shown) => child.elim Datum.empty (·.datum)
  match payload with
  | .literal value _ => value.toDatum
  | .collection _ elements _ => all elements
  | .mapping entries _ =>
    .list (entries.map fun (key, value) => .map [("key", key.datum), ("value", value.datum)])
  | .variable name _ => .text name
  | .declaration _ value => optional value
  | .assignment _ value => value.datum
  | .unary _ operand _ => operand.datum
  | .binary _ lhs rhs _ => .map [("lhs", lhs.datum), ("rhs", rhs.datum)]
  | .cast operand _ => operand.datum
  | .block _ nodes => all nodes
  | .module _ nodes => all nodes
  | .argument _ default => optional default
  | .prototype signature arguments =>
    .map [("args", all arguments), ("return_type", .text signature.returnType.key)]
  | .function head body => .map (head.content.entries ++ [("body", body.datum)])
  | .call _ arguments _ => all arguments
  | .returning value => optional value
  | .conditional condition consequent alternative =>
    .map ([("condition", condition.datum), ("then", consequent.datum)] ++
      (alternative.map fun block => ("else", block.datum)).toList)
  | .whileLoop condition body => .map [("condition", condition.datum), ("body", body.datum)]
  | .forLoop target iterable conditions body =>
    .map [("target", target.datum), ("iterable", iterable.datum), ("conditions", all conditions),
      ("body", body.datum)]
  | .rangeLoop counter start stop step body =>
    .map ([("variable", counter.datum), ("start", start.datum), ("end", stop.datum)] ++
      (step.map fun step => ("step", step.datum)).toList ++ [("body", body.datum)])
  | .breaking => .empty
  | .continuing => .empty
  | .clause target iterable conditions _ =>
    .map [("target", target.datum), ("iterable", iterable.datum), ("conditions", all conditions)]
  | .comprehension _ element generators _ =>
    .map [("element", element.datum), ("generators", all generators)]
  | .classDecl _ bases decorators => .map [("bases", all bases), ("decorators", all decorators)]
  | .classDef _ bases decorators attributes methods =>
    .map [("bases", all bases), ("decorators", all decorators), ("attributes", all attributes),
      ("methods", all methods)]

/-- What is exported of a node, given the children and what is exported of them. -/
def shownFrom (detail : Detail) (info : TermInfo)
    (payload : Payload (Term × Except NodeError Shown)) : Except NodeError Shown := do
  let t := Term.node info (payload.map (·.1))
  let tag ← t.tag
  let content := contentOf (← payload.traverse (·.2))
  return ⟨content, t.tagged detail tag content⟩

/-- What is exported of a term. A function is refused whose head is no prototype. -/
def shown (detail : Detail) : Term → Except NodeError Shown :=
  fold (shownFrom detail)

/-- The export of a term. -/
def toDatum (detail : Detail) (t : Term) : Except NodeError Datum :=
  (t.shown detail).map (·.datum)

end Term

namespace Tree

/-- The export of the subtree below a node. -/
def toDatum (tree : Tree) (id : NodeId) (detail : Detail) : Except NodeError Datum := do
  let t ← tree.term id
  t.toDatum detail

/-- Whether two subtrees have the same simplified export. -/
def structureEq (tree : Tree) (id : NodeId) (other : Tree) (otherId : NodeId) :
    Except NodeError Bool := do
  let a ← tree.toDatum id .simplified
  let b ← other.toDatum otherId .simplified
  return a.structureEq b

end Tree

end TypedSyntax
