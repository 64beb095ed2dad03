import TypedSyntax.Config
import TypedSyntax.Python.Text
import TypedSyntax.Term

/-!
# Python source

Renders terms as Python. A block's statements are indented under their
header, an empty block is `pass`, and a module begins with the imports that
its text needs.
-/

namespace TypedSyntax.Python

/-- The names that a text uses without defining them. -/
structure Imports where
  datetime : Bool
  abc : Bool
  any : Bool
deriving DecidableEq, Repr

namespace Imports

def none : Imports := ⟨false, false, false⟩

instance : Inhabited Imports := ⟨none⟩

/-- The import lines, in a fixed order. -/
def lines (imports : Imports) : List String :=
  (if imports.datetime then ["import datetime"] else []) ++
    (if imports.abc then ["from abc import ABC"] else []) ++
    (if imports.any then ["from typing import Any"] else [])

end Imports

/-- A text in progress, which notes the imports it needs. -/
abbrev Writing := StateM Imports

def needDatetime : Writing Unit :=
  modify fun imports => { imports with datetime := true }

def needAbc : Writing Unit :=
  modify fun imports => { imports with abc := true }

def needAny : Writing Unit :=
  modify fun imports => { imports with any := true }

mutual

/-- Notes the imports of an annotation. -/
def needType : DataType → Writing Unit
  | .date | .time | .dateTime | .timestamp => needDatetime
  | .any => needAny
  | .list item => needType item
  | .set item => needType item
  | .tuple items => needTypes items
  | .map key value => do
    needType key
    needType value
  | _ => pure ()

def needTypes : List DataType → Writing Unit
  | [] => pure ()
  | item :: items => do
    needType item
    needTypes items

end

/-- The annotation of a declared type, unless annotations are off. -/
def annotate (options : PythonOptions) (type : DataType) : Writing (Option String) :=
  if options.typeHints then do
    needType type
    return some (hint type)
  else
    return none

/-- Puts lines on top of each other. -/
def joinLines (lines : List String) : String :=
  "\n".intercalate lines

/-- A list of texts with commas. -/
def commaList (items : List String) : String :=
  ", ".intercalate items

/-- Indents every line of a text that is not empty. -/
def indentLines (options : PythonOptions) (text : String) : String :=
  let margin := List.replicate options.indent ' '
  joinLines <| (Text.lines text.toList).map fun line =>
    if line.isEmpty then "" else String.ofList (margin ++ line)

/-- A comment above a statement. -/
def commentLines (comment : String) : String :=
  String.join ((Text.lines comment.toList).map fun line => "# " ++ String.ofList line ++ "\n")

/-- A node of a payload with its text. -/
abbrev Part := Term × Writing String

/-- The texts of some nodes. -/
def texts (parts : List Part) : Writing (List String) :=
  parts.mapM (·.2)

/-- A statement below its comment. -/
def statement (part : Part) : Writing String := do
  let text ← part.2
  if part.1.comment.isEmpty then return text
  else return commentLines part.1.comment ++ text

/-- An indented body. -/
def body (options : PythonOptions) (part : Part) : Writing String := do
  return indentLines options (← part.2)

/-- An operand, in parentheses if it is an operation itself. -/
def operand (part : Part) : Writing String := do
  let text ← part.2
  match part.1.kind with
  | .binary | .unary => return "(" ++ text ++ ")"
  | _ => return text

/-- A loop target. A declared one is a bare name too. -/
def target (part : Part) : Writing String :=
  match part.1.payload with
  | .variable name _ => return name
  | .declaration declared _ => return declared.name
  | _ => part.2

/-- The filter of a loop. -/
def conjunction : List Part → Writing String
  | [single] => single.2
  | parts => do return " and ".intercalate (← parts.mapM operand)

/-- Whether an alternative holds nothing but another conditional without a
comment. -/
def isElif (alternative : Term) : Bool :=
  match alternative.payload with
  | .block _ [only] => only.kind = .conditional && only.comment.isEmpty
  | _ => false

/-- The constructor that a cast to a type calls. A cast without one is not
written. -/
def castName? : DataType → Option String
  | .boolean => some "bool"
  | .int .. => some "int"
  | .float _ => some "float"
  | .complex _ => some "complex"
  | .string | .utf8String | .utf8Char => some "str"
  | .bareList | .list _ => some "list"
  | .bareSet | .set _ => some "set"
  | .tuple _ => some "tuple"
  | .bareMap | .map .. => some "dict"
  | .date | .time | .dateTime | .timestamp | .null | .any => none

def literal (value : LiteralValue) (type : DataType) : Writing String :=
  match value with
  | .bool true => return "True"
  | .bool false => return "False"
  | .int v => return toString v.toInt
  | .uint v => return toString v.toNat
  | .float x => return floatLiteral x
  | .complex real imag =>
    return "complex(" ++ floatLiteral real ++ ", " ++ floatLiteral imag ++ ")"
  | .text s => return quote s
  | .char c => return quote c.toString
  | .temporal s => do
    needDatetime
    let constructor :=
      match type with
      | .date => "datetime.date"
      | .time => "datetime.time"
      | _ => "datetime.datetime"
    return constructor ++ ".fromisoformat(" ++ quote s ++ ")"

def collection (kind : CollectionKind) (items : List String) : String :=
  match kind, items with
  | .list, items => "[" ++ commaList items ++ "]"
  | .set, [] => "set()"
  | .set, items => "\x7b" ++ commaList items ++ "\x7d"
  | .tuple, [single] => "(" ++ single ++ ",)"
  | .tuple, items => "(" ++ commaList items ++ ")"

/-- A declared variable with its annotation and value. -/
def declaration (name : String) (hint? value? : Option String) : String :=
  match hint?, value? with
  | some hint, some value => name ++ ": " ++ hint ++ " = " ++ value
  | some hint, none => name ++ ": " ++ hint
  | none, some value => name ++ " = " ++ value
  | none, none => name ++ " = None"

/-- A parameter with its annotation and default. -/
def parameter (name : String) (hint? default? : Option String) : String :=
  match hint?, default? with
  | some hint, some default => name ++ ": " ++ hint ++ " = " ++ default
  | some hint, none => name ++ ": " ++ hint
  | none, some default => name ++ "=" ++ default
  | none, none => name

/-- The decorators, name and bases of a class. -/
def classHead (header : ClassHeader) (bases decorators : List Part) : Writing String := do
  let above := String.join ((← texts decorators).map fun text => "@" ++ text ++ "\n")
  let bases ← texts bases
  let bases ← if header.isAbstract then do
      needAbc
      pure (bases ++ ["ABC"])
    else pure bases
  let inherited := if bases.isEmpty then "" else "(" ++ commaList bases ++ ")"
  return above ++ "class " ++ header.name ++ inherited ++ ":"

/-- The members of a class, with a blank line before each method but a first
member. -/
def members (attributes methods : List String) : List String :=
  match attributes, methods with
  | [], [] => ["pass"]
  | [], first :: rest => first :: rest.flatMap fun method => ["", method]
  | attributes, methods => attributes ++ methods.flatMap fun method => ["", method]

/-- A module below its imports. -/
def moduleText (imports : Imports) (body : String) : String :=
  let header := joinLines imports.lines
  if imports.lines.isEmpty then body
  else if body.isEmpty then header
  else header ++ "\n\n" ++ body

/-! ## The rules, one for each kind of node -/

/-- An optional value. -/
def valueText (part? : Option Part) : Writing (Option String) :=
  part?.mapM (·.2)

def writeCollection (kind : CollectionKind) (elements : List Part) : Writing String := do
  return collection kind (← texts elements)

def writeEntry (entry : Part × Part) : Writing String := do
  return (← entry.1.2) ++ ": " ++ (← entry.2.2)

def writeMapping (entries : List (Part × Part)) : Writing String := do
  return "\x7b" ++ commaList (← entries.mapM writeEntry) ++ "\x7d"

def writeDeclaration (options : PythonOptions) (declared : Declaration) (value : Option Part) :
    Writing String := do
  let value ← valueText value
  return declaration declared.name (← annotate options declared.type) value

def writeAssignment (name : String) (value : Part) : Writing String := do
  return name ++ " = " ++ (← value.2)

def writeUnary (op : UnaryOperator) (part : Part) : Writing String := do
  let text ← operand part
  return (if op = .not then "not " else op.token) ++ text

def writeBinary (op : BinaryOperator) (lhs rhs : Part) : Writing String := do
  let left ← operand lhs
  let right ← operand rhs
  return left ++ " " ++ (if op = .xor then "^" else op.token) ++ " " ++ right

def writeCast (part : Part) (target : DataType) : Writing String := do
  let text ← part.2
  match castName? target with
  | some name => return name ++ "(" ++ text ++ ")"
  | none => return text

def writeBlock (nodes : List Part) : Writing String := do
  if nodes.isEmpty then return "pass"
  else return joinLines (← nodes.mapM statement)

/-- A module shows what was noted since it began. -/
def writeModule (nodes : List Part) : Writing String := do
  set Imports.none
  let body := joinLines (← nodes.mapM statement)
  return moduleText (← get) body

def writeArgument (options : PythonOptions) (declared : Parameter) (default : Option Part) :
    Writing String := do
  let default ← valueText default
  return parameter declared.name (← annotate options declared.type) default

/-- The header of a function without the colon. A method has one parameter more. -/
def writePrototype (options : PythonOptions) (isMethod : Bool) (signature : Signature)
    (arguments : List Part) : Writing String := do
  let own := if isMethod then ["self"] else []
  let parameters := own ++ (← texts arguments)
  let result ← annotate options signature.returnType
  return "def " ++ signature.name ++ "(" ++ commaList parameters ++ ")" ++
    result.elim "" (" -> " ++ ·)

def writeFunction (options : PythonOptions) (head part : Part) : Writing String := do
  let head ← head.2
  return head ++ ":\n" ++ (← body options part)

def writeCall (callee : String) (arguments : List Part) : Writing String := do
  return callee ++ "(" ++ commaList (← texts arguments) ++ ")"

def writeReturn : Option Part → Writing String
  | none => return "return"
  | some value => do return "return " ++ (← value.2)

/-- What follows the consequent of a conditional. -/
def writeElse (options : PythonOptions) : Option Part → Writing String
  | none => return ""
  | some block => do
    if isElif block.1 then return "\nel" ++ (← block.2)
    else return "\nelse:\n" ++ (← body options block)

def writeConditional (options : PythonOptions) (condition consequent : Part)
    (alternative : Option Part) : Writing String := do
  let condition ← condition.2
  let first := "if " ++ condition ++ ":\n" ++ (← body options consequent)
  return first ++ (← writeElse options alternative)

def writeWhile (options : PythonOptions) (condition part : Part) : Writing String := do
  let condition ← condition.2
  return "while " ++ condition ++ ":\n" ++ (← body options part)

/-- A body below the conditions of its loop, if there are any. -/
def filtered (options : PythonOptions) (conditions : List Part) (inner : String) :
    Writing String :=
  if conditions.isEmpty then return inner
  else do
    let filter ← conjunction conditions
    return indentLines options ("if " ++ filter ++ ":\n" ++ inner)

def writeFor (options : PythonOptions) (names iterable : Part) (conditions : List Part)
    (part : Part) : Writing String := do
  let names ← target names
  let iterable ← iterable.2
  let inner ← filtered options conditions (← body options part)
  return "for " ++ names ++ " in " ++ iterable ++ ":\n" ++ inner

def writeRange (options : PythonOptions) (counter start stop : Part) (step : Option Part)
    (part : Part) : Writing String := do
  let counter ← target counter
  let start ← start.2
  let stop ← stop.2
  let step ← valueText step
  let inner ← body options part
  return "for " ++ counter ++ " in range(" ++ commaList (start :: stop :: step.toList) ++
    "):\n" ++ inner

def writeClause (names iterable : Part) (conditions : List Part) (isAsync : Bool) :
    Writing String := do
  let names ← target names
  let iterable ← iterable.2
  let filters := String.join ((← texts conditions).map (" if " ++ ·))
  return (if isAsync then "async for " else "for ") ++ names ++ " in " ++ iterable ++ filters

def writeComprehension (kind : ComprehensionKind) (element : Part) (generators : List Part) :
    Writing String := do
  let element ← element.2
  let inner := element ++ String.join ((← texts generators).map (" " ++ ·))
  match kind with
  | .list => return "[" ++ inner ++ "]"
  | .set => return "\x7b" ++ inner ++ "\x7d"
  | .generator => return "(" ++ inner ++ ")"

def writeClassDecl (options : PythonOptions) (header : ClassHeader)
    (bases decorators : List Part) : Writing String := do
  let head ← classHead header bases decorators
  return head ++ "\n" ++ indentLines options "pass"

def writeClassDef (options : PythonOptions) (header : ClassHeader)
    (bases decorators attributes methods : List Part) : Writing String := do
  let head ← classHead header bases decorators
  let attributes ← attributes.mapM statement
  let methods ← methods.mapM statement
  return head ++ "\n" ++ indentLines options (joinLines (members attributes methods))

/-- The text of a node from the texts of its children. -/
def nodeText (options : PythonOptions) (info : TermInfo) : Payload Part → Writing String
  | .literal value type => literal value type
  | .collection kind elements _ => writeCollection kind elements
  | .mapping entries _ => writeMapping entries
  | .variable name _ => return name
  | .declaration declared value => writeDeclaration options declared value
  | .assignment name value => writeAssignment name value
  | .unary op part _ => writeUnary op part
  | .binary op lhs rhs _ => writeBinary op lhs rhs
  | .cast part target => writeCast part target
  | .block _ nodes => writeBlock nodes
  | .module _ nodes => writeModule nodes
  | .argument declared default => writeArgument options declared default
  | .prototype signature arguments => writePrototype options info.isMethod signature arguments
  | .function head part => writeFunction options head part
  | .call callee arguments _ => writeCall callee arguments
  | .returning value => writeReturn value
  | .conditional condition consequent alternative =>
    writeConditional options condition consequent alternative
  | .whileLoop condition part => writeWhile options condition part
  | .forLoop names iterable conditions part => writeFor options names iterable conditions part
  | .rangeLoop counter start stop step part => writeRange options counter start stop step part
  | .breaking => return "break"
  | .continuing => return "continue"
  | .clause names iterable conditions isAsync => writeClause names iterable conditions isAsync
  | .comprehension kind element generators _ => writeComprehension kind element generators
  | .classDecl header bases decorators => writeClassDecl options header bases decorators
  | .classDef header bases decorators attributes methods =>
    writeClassDef options header bases decorators attributes methods

/-- The text of a term. -/
def text (options : PythonOptions) : Term → Writing String :=
  Term.fold (nodeText options)

/-- A writer with its options, and the imports noted by what it wrote since
the last module began. -/
structure Writer where
  options : PythonOptions
  imports : Imports
deriving DecidableEq, Repr

namespace Writer

def new (options : PythonOptions) : Writer := ⟨options, .none⟩

instance : Inhabited Writer := ⟨new .default⟩

/-- Renders the subtree below a node. A module's text ends with a line
feed. -/
def render (writer : Writer) (tree : Tree) (root : NodeId) :
    Except RenderError String × Writer :=
  match tree.term root with
  | .error e => (.error (.node e), writer)
  | .ok t =>
    let (out, imports) := (text writer.options t).run writer.imports
    let closed := if t.kind = .module && !out.isEmpty then out ++ "\n" else out
    (.ok closed, { writer with imports })

end Writer

/-- Renders the subtree below a node with the default options. -/
def emit (tree : Tree) (root : NodeId) : Except RenderError String :=
  ((Writer.new .default).render tree root).1

end TypedSyntax.Python
