import TypedSyntax.Tree.Basic

/-!
# Drafts

A draft describes a node to build, as the caller gives it: operators are
tokens, and nothing is checked yet.
-/

namespace TypedSyntax

/-- Literals whose value fits their type by construction. -/
inductive PlainLiteral where
  | boolean (value : Bool)
  | signed (width : IntWidth) (value : BitVec width.bits)
  | unsigned (width : IntWidth) (value : BitVec width.bits)
  | float32 (bits : BitVec 32)
  | float64 (value : Double)
  | string (value : String)
  | utf8String (value : String)
  | utf8Char (value : Char)
deriving Repr

namespace PlainLiteral

def value : PlainLiteral → LiteralValue
  | .boolean b => .bool b
  | .signed _ v => .int (v.signExtend 128)
  | .unsigned _ v => .uint (v.setWidth 128)
  | .float32 bits => .float (.ofSingle bits)
  | .float64 x => .float x
  | .string s => .text s
  | .utf8String s => .text s
  | .utf8Char c => .char c

def type : PlainLiteral → DataType
  | .boolean _ => .boolean
  | .signed width _ => .int true width
  | .unsigned width _ => .int false width
  | .float32 _ => .float .w32
  | .float64 _ => .float .w64
  | .string _ => .string
  | .utf8String _ => .utf8String
  | .utf8Char _ => .utf8Char

end PlainLiteral

/-- A node to build. -/
inductive Draft where
  | plain (literal : PlainLiteral)
  | variable (name : String) (type : DataType)
  | breaking
  | continuing
  | literal (value : LiteralValue) (type : DataType)
  | collection (kind : CollectionKind) (elements : List NodeId)
  | mapping (entries : List (NodeId × NodeId))
  | declaration (declared : Declaration) (value : Option NodeId)
  | assignment (name : String) (value : NodeId)
  | unary (token : String) (operand : NodeId)
  | binary (token : String) (lhs rhs : NodeId)
  | cast (operand : NodeId) (target : DataType)
  | block (name : String) (nodes : List NodeId)
  | module (name : String) (nodes : List NodeId)
  | argument (parameter : Parameter) (default : Option NodeId)
  | prototype (signature : Signature) (arguments : List NodeId)
  | function (head body : NodeId)
  | call (callee : NodeId) (arguments : List NodeId)
  | callNamed (callee : String) (arguments : List NodeId) (type : DataType)
  | returning (value : Option NodeId)
  | conditional (condition consequent : NodeId) (alternative : Option NodeId)
  | whileLoop (condition body : NodeId)
  | forLoop (target iterable : NodeId) (conditions : List NodeId) (body : NodeId)
  | rangeLoop (counter start stop : NodeId) (step : Option NodeId) (body : NodeId)
  | clause (target iterable : NodeId) (conditions : List NodeId) (isAsync : Bool)
  | comprehension (kind : ComprehensionKind) (element : NodeId) (generators : List NodeId)
  | classDecl (header : ClassHeader) (bases decorators : List NodeId)
  | classDef (header : ClassHeader) (bases decorators attributes methods : List NodeId)
deriving Repr

namespace Draft

/-- A calendar day. -/
def date (text : String) : Draft := .literal (.temporal text) .date

/-- A time of day. -/
def time (text : String) : Draft := .literal (.temporal text) .time

/-- A day and a time around the letter T. -/
def dateTime (text : String) : Draft := .literal (.temporal text) .dateTime

/-- A day and a time around a space. -/
def timestamp (text : String) : Draft := .literal (.temporal text) .timestamp

end Draft

end TypedSyntax
