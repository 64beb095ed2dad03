import TypedSyntax.Operator

/-!
# Python expressions

The part of Python's expression grammar in which the writer's expressions are
written: tokens, the expressions that they stand for, and the grammar as a
relation between the two. Levels count how tightly an expression binds, from
`or` (1) to names, literals and brackets (10).
-/

namespace TypedSyntax

namespace Python

/-- A token. Words are names and keywords, and marks are operators and
delimiters. -/
inductive Token where
  | word (text : String)
  | number (text : String)
  | text (text : String)
  | mark (text : String)
deriving DecidableEq, Repr

def keywords : List String :=
  ["False", "None", "True", "and", "as", "assert", "async", "await", "break", "class",
    "continue", "def", "del", "elif", "else", "except", "finally", "for", "from", "global",
    "if", "import", "in", "is", "lambda", "nonlocal", "not", "or", "pass", "raise", "return",
    "try", "while", "with", "yield"]

/-- The keywords that are expressions. -/
def constants : List String :=
  ["False", "None", "True"]

def isNameStart (c : Char) : Bool :=
  c.isAlpha || c == '_' || decide (128 ≤ c.toNat)

def isNameChar (c : Char) : Bool :=
  isNameStart c || c.isDigit

/-- Whether a text is written like a name. -/
def isName (text : String) : Bool :=
  match text.toList with
  | [] => false
  | c :: cs => isNameStart c && cs.all isNameChar

/-- A plain identifier: a name that is no keyword. -/
def isPlain (text : String) : Bool :=
  isName text && !keywords.contains text

end Python

open Python

namespace UnaryOperator

/-- How tightly an operation binds; its operand may bind as tightly. -/
def level : UnaryOperator → Nat
  | .not => 3
  | .neg | .pos | .bitNot => 8

def symbol : UnaryOperator → Token
  | .not => .word "not"
  | op => .mark op.token

end UnaryOperator

namespace BinaryOperator

def isComparison (op : BinaryOperator) : Bool :=
  op.operatorClass = .comparison

/-- How tightly an operation binds. -/
def level : BinaryOperator → Nat
  | .or => 1
  | .and => 2
  | .eq | .ne | .lt | .le | .gt | .ge => 4
  | .xor => 5
  | .add | .sub => 6
  | .mul | .div | .floorDiv | .mod => 7
  | .pow => 9

/-- The least level of a left operand. Comparisons do not group, and the base
of a power has no operator outside of brackets. -/
def left (op : BinaryOperator) : Nat :=
  match op with
  | .pow => 10
  | op => if op.isComparison then 5 else op.level

/-- The least level of a right operand. A power's exponent may have a sign. -/
def right (op : BinaryOperator) : Nat :=
  match op with
  | .pow => 8
  | op => op.level + 1

def symbol : BinaryOperator → Token
  | .and => .word "and"
  | .or => .word "or"
  | .xor => .mark "^"
  | op => .mark op.token

/-- A left operand binds at least as tightly as the operation. -/
theorem level_le_left (op : BinaryOperator) : op.level ≤ op.left := by
  cases op <;> decide

theorem right_le (op : BinaryOperator) : op.right ≤ 8 := by
  cases op <;> decide

/-- All comparisons have one level, and operands of the next one. -/
theorem levels_of_isComparison {op : BinaryOperator} (h : op.isComparison = true) :
    op.left = 5 ∧ op.level = 4 ∧ op.right = 5 := by
  cases op <;> simp_all [isComparison, operatorClass, left, level, right]

/-- An operator that ends a right operand takes the whole operation as its
left operand. -/
theorem left_le_level {op next : BinaryOperator} (h : next.level < op.right)
    (hcomparison : (op.isComparison && next.isComparison) = false) : next.left ≤ op.level := by
  cases op <;> cases next <;> revert h hcomparison <;> decide

end BinaryOperator

/-- An operator that ends the operand of a sign or negation takes the whole
operation as its left operand. -/
theorem UnaryOperator.left_le_level {op : UnaryOperator} {next : BinaryOperator}
    (h : next.level < op.level) : next.left ≤ op.level := by
  cases op <;> cases next <;> revert h <;> decide

namespace Python

inductive Bracket where
  | round
  | square
  | curly
deriving DecidableEq, Repr

def Bracket.opening : Bracket → Token
  | .round => .mark "("
  | .square => .mark "["
  | .curly => .mark "\x7b"

def Bracket.closing : Bracket → Token
  | .round => .mark ")"
  | .square => .mark "]"
  | .curly => .mark "\x7d"

namespace Token

def comma : Token := .mark ","
def colon : Token := .mark ":"
def dot : Token := .mark "."

/-- The unary operator that an expression begins with. -/
def unary? (tok : Token) : Option UnaryOperator :=
  UnaryOperator.all.find? (·.symbol = tok)

/-- The binary operator that follows an operand. -/
def binary? (tok : Token) : Option BinaryOperator :=
  BinaryOperator.all.find? (·.symbol = tok)

/-- The bracket that a token opens. -/
def bracket? (tok : Token) : Option Bracket :=
  [Bracket.round, .square, .curly].find? (·.opening = tok)

theorem symbol_of_unary? {tok : Token} {op : UnaryOperator} (h : tok.unary? = some op) :
    op.symbol = tok := by
  simpa using List.find?_some h

theorem symbol_of_binary? {tok : Token} {op : BinaryOperator} (h : tok.binary? = some op) :
    op.symbol = tok := by
  simpa using List.find?_some h

theorem opening_of_bracket? {tok : Token} {b : Bracket} (h : tok.bracket? = some b) :
    b.opening = tok := by
  simpa using List.find?_some h

@[simp] theorem unary?_symbol (op : UnaryOperator) : op.symbol.unary? = some op := by
  cases op <;> decide

@[simp] theorem binary?_symbol (op : BinaryOperator) : op.symbol.binary? = some op := by
  cases op <;> decide

@[simp] theorem bracket?_opening (b : Bracket) : b.opening.bracket? = some b := by
  cases b <;> decide

@[simp] theorem unary?_opening (b : Bracket) : b.opening.unary? = none := by
  cases b <;> decide

/-- Whether a token is an expression by itself. -/
def isAtom : Token → Bool
  | .word w => isPlain w || constants.contains w
  | .number _ | .text _ => true
  | .mark _ => false

end Token

/-- An expression, with `none` and `cons` for the lists inside it. `group`
stands for written parentheses, which the grammar leaves out, and `chained`
continues a chain of comparisons. -/
inductive Expr where
  | atom (token : Token)
  | group (e : Expr)
  | unary (op : UnaryOperator) (operand : Expr)
  | binary (op : BinaryOperator) (lhs rhs : Expr)
  | chained (op : BinaryOperator) (lhs rhs : Expr)
  | member (object : Expr) (name : String)
  | call (callee arguments : Expr)
  | display (bracket : Bracket) (items : Expr)
  | comprehension (bracket : Bracket) (element clauses : Expr)
  | pair (key value : Expr)
  | clause (isAsync : Bool) (target : String) (iterable filters : Expr)
  | none
  | cons (head tail : Expr)
deriving DecidableEq, Repr

namespace Expr

def ofList (es : List Expr) : Expr :=
  es.foldr cons none

@[simp] theorem ofList_nil : ofList [] = none := rfl

@[simp] theorem ofList_cons (e : Expr) (es : List Expr) :
    ofList (e :: es) = cons e (ofList es) := rfl

end Expr

/-- What a bracket around one or more items stands for. A round bracket around
a single one only groups. -/
def Bracket.enclose : Bracket → Expr → Expr → Expr
  | .round, e, .none => e
  | b, e, es => .display b (.cons e es)

/-- The forms of the grammar: an expression of at least some level, an open
chain of comparisons, an item of a display and further items after commas,
and what stands inside brackets, calls and comprehensions. -/
inductive Form where
  | level (l : Nat)
  | chain
  | item (entry : Bool)
  | more (entry : Bool)
  | contents (bracket : Bracket)
  | arguments
  | clauses
  | filters

/-- The first tokens of a clause up to its iterable. -/
def clauseHead (isAsync : Bool) (target : String) : List Token :=
  (if isAsync then [.word "async"] else []) ++ [.word "for", .word target, .word "in"]

open Token in
/-- The grammar: which tokens an expression of a form may be written with. -/
inductive Derives : Form → Expr → List Token → Prop
  | atom {l tok} : l ≤ 10 → tok.isAtom = true → Derives (.level l) (.atom tok) [tok]
  | bracket {l b e ts} : l ≤ 10 → Derives (.contents b) e ts →
      Derives (.level l) e (b.opening :: ts ++ [b.closing])
  | unary {l op e ts} : l ≤ op.level → Derives (.level op.level) e ts →
      Derives (.level l) (.unary op e) (op.symbol :: ts)
  | binary {l op a b ts us} : l ≤ op.level → op.isComparison = false →
      Derives (.level op.left) a ts → Derives (.level op.right) b us →
      Derives (.level l) (.binary op a b) (ts ++ op.symbol :: us)
  | comparison {l e ts} : l ≤ 4 → Derives .chain e ts → Derives (.level l) e ts
  | member {l e name ts} : l ≤ 10 → isPlain name = true → Derives (.level 10) e ts →
      Derives (.level l) (.member e name) (ts ++ [dot, .word name])
  | call {l f args ts us} : l ≤ 10 → Derives (.level 10) f ts → Derives .arguments args us →
      Derives (.level l) (.call f args)
        (ts ++ Bracket.round.opening :: us ++ [Bracket.round.closing])
  | first {op a b ts us} : op.isComparison = true → Derives (.level op.left) a ts →
      Derives (.level op.right) b us → Derives .chain (.binary op a b) (ts ++ op.symbol :: us)
  | next {op a b ts us} : op.isComparison = true → Derives .chain a ts →
      Derives (.level op.right) b us → Derives .chain (.chained op a b) (ts ++ op.symbol :: us)
  | plain {e ts} : Derives (.level 1) e ts → Derives (.item false) e ts
  | entry {k v ts us} : Derives (.level 1) k ts → Derives (.level 1) v us →
      Derives (.item true) (.pair k v) (ts ++ colon :: us)
  | noMore {entry} : Derives (.more entry) .none []
  | more {entry e es ts us} : Derives (.item entry) e ts → Derives (.more entry) es us →
      Derives (.more entry) (.cons e es) (comma :: ts ++ us)
  | empty {b} : Derives (.contents b) (.display b .none) []
  | items {b e es x ts us} : Derives (.level 1) e ts → Derives (.more false) es us →
      x = b.enclose e es → Derives (.contents b) x (ts ++ us)
  | singleton {e ts} : Derives (.level 1) e ts →
      Derives (.contents .round) (.display .round (.cons e .none)) (ts ++ [comma])
  | entries {k v es ts us vs} : Derives (.level 1) k ts → Derives (.level 1) v us →
      Derives (.more true) es vs →
      Derives (.contents .curly) (.display .curly (.cons (.pair k v) es)) (ts ++ colon :: us ++ vs)
  | comprehension {b e c cs ts us} : Derives (.level 1) e ts →
      Derives .clauses (.cons c cs) us →
      Derives (.contents b) (.comprehension b e (.cons c cs)) (ts ++ us)
  | noArguments : Derives .arguments .none []
  | arguments {e es ts us} : Derives (.level 1) e ts → Derives (.more false) es us →
      Derives .arguments (.cons e es) (ts ++ us)
  | noClauses : Derives .clauses .none []
  | clauses {isAsync target e fs cs ts us vs} : isPlain target = true →
      Derives (.level 1) e ts → Derives .filters fs us → Derives .clauses cs vs →
      Derives .clauses (.cons (.clause isAsync target e fs) cs)
        (clauseHead isAsync target ++ (ts ++ (us ++ vs)))
  | noFilters : Derives .filters .none []
  | filters {e fs ts us} : Derives (.level 1) e ts → Derives .filters fs us →
      Derives .filters (.cons e fs) (.word "if" :: ts ++ us)

/-- An expression is one of every lower level too. -/
theorem Derives.weaken {l m : Nat} {e : Expr} {ts : List Token} (h : Derives (.level m) e ts)
    (hlm : l ≤ m) : Derives (.level l) e ts := by
  cases h with
  | atom hm hatom => exact Derives.atom (Nat.le_trans hlm hm) hatom
  | bracket hm hc => exact Derives.bracket (Nat.le_trans hlm hm) hc
  | unary hm he => exact Derives.unary (Nat.le_trans hlm hm) he
  | binary hm hop ha hb => exact Derives.binary (Nat.le_trans hlm hm) hop ha hb
  | comparison hm hc => exact Derives.comparison (Nat.le_trans hlm hm) hc
  | member hm hname he => exact Derives.member (Nat.le_trans hlm hm) hname he
  | call hm hf hargs => exact Derives.call (Nat.le_trans hlm hm) hf hargs

/-- There is no level above that of calls. -/
theorem Derives.level_le_ten {l : Nat} {e : Expr} {ts : List Token}
    (h : Derives (.level l) e ts) : l ≤ 10 := by
  cases h with
  | atom hl | bracket hl | member hl | call hl => exact hl
  | @unary _ op _ _ hl => cases op <;> exact Nat.le_trans hl (by decide)
  | @binary _ op _ _ _ _ hl => cases op <;> exact Nat.le_trans hl (by decide)
  | comparison hl => omega

end Python

end TypedSyntax
