import TypedSyntax.Tree.Basic

/-!
# Terms

A term is a subtree cut out of the tree that owns it: every child slot holds
the child itself. `Term.fold` computes a value for each node from the children
and their values, and `Tree.term` cuts out the term below a node.
-/

namespace TypedSyntax

/-- What a node holds besides its payload. `isMethod` says that the parent of
the node's parent is a class definition. -/
structure TermInfo where
  id : NodeId
  tag : Nat
  loc : SourceLocation
  comment : String
  isMethod : Bool
deriving DecidableEq, Repr

inductive Term where
  | node (info : TermInfo) (payload : Payload Term)

namespace Term

def info : Term → TermInfo
  | .node info _ => info

def payload : Term → Payload Term
  | .node _ payload => payload

def kind (t : Term) : Kind :=
  t.payload.kind

def comment (t : Term) : String :=
  t.info.comment

variable {β : Type}

mutual

/-- The value of a term, given by the payload with each child beside its
value. -/
def fold (value : TermInfo → Payload (Term × β) → β) : Term → β
  | .node info payload => value info (foldPayload value payload)

def foldPayload (value : TermInfo → Payload (Term × β) → β) : Payload Term → Payload (Term × β)
  | .literal v type => .literal v type
  | .collection kind elements type => .collection kind (foldList value elements) type
  | .mapping entries type => .mapping (foldPairs value entries) type
  | .variable name type => .variable name type
  | .declaration declared v => .declaration declared (foldOption value v)
  | .assignment name v => .assignment name (v, fold value v)
  | .unary op operand type => .unary op (operand, fold value operand) type
  | .binary op lhs rhs type => .binary op (lhs, fold value lhs) (rhs, fold value rhs) type
  | .cast operand target => .cast (operand, fold value operand) target
  | .block name nodes => .block name (foldList value nodes)
  | .module name nodes => .module name (foldList value nodes)
  | .argument parameter default => .argument parameter (foldOption value default)
  | .prototype signature arguments => .prototype signature (foldList value arguments)
  | .function head body => .function (head, fold value head) (body, fold value body)
  | .call callee arguments type => .call callee (foldList value arguments) type
  | .returning v => .returning (foldOption value v)
  | .conditional condition consequent alternative =>
    .conditional (condition, fold value condition) (consequent, fold value consequent)
      (foldOption value alternative)
  | .whileLoop condition body =>
    .whileLoop (condition, fold value condition) (body, fold value body)
  | .forLoop target iterable conditions body =>
    .forLoop (target, fold value target) (iterable, fold value iterable)
      (foldList value conditions) (body, fold value body)
  | .rangeLoop counter start stop step body =>
    .rangeLoop (counter, fold value counter) (start, fold value start) (stop, fold value stop)
      (foldOption value step) (body, fold value body)
  | .breaking => .breaking
  | .continuing => .continuing
  | .clause target iterable conditions isAsync =>
    .clause (target, fold value target) (iterable, fold value iterable)
      (foldList value conditions) isAsync
  | .comprehension kind element generators type =>
    .comprehension kind (element, fold value element) (foldList value generators) type
  | .classDecl header bases decorators =>
    .classDecl header (foldList value bases) (foldList value decorators)
  | .classDef header bases decorators attributes methods =>
    .classDef header (foldList value bases) (foldList value decorators)
      (foldList value attributes) (foldList value methods)

def foldList (value : TermInfo → Payload (Term × β) → β) : List Term → List (Term × β)
  | [] => []
  | t :: ts => (t, fold value t) :: foldList value ts

def foldOption (value : TermInfo → Payload (Term × β) → β) : Option Term → Option (Term × β)
  | none => none
  | some t => some (t, fold value t)

def foldPairs (value : TermInfo → Payload (Term × β) → β) :
    List (Term × Term) → List ((Term × β) × (Term × β))
  | [] => []
  | (k, v) :: rest => ((k, fold value k), (v, fold value v)) :: foldPairs value rest

end

theorem foldList_eq (value : TermInfo → Payload (Term × β) → β) (ts : List Term) :
    foldList value ts = ts.map fun t => (t, fold value t) := by
  induction ts with
  | nil => rfl
  | cons t ts ih => simp [foldList, ih]

theorem foldOption_eq (value : TermInfo → Payload (Term × β) → β) (t? : Option Term) :
    foldOption value t? = t?.map fun t => (t, fold value t) := by
  cases t? <;> rfl

theorem foldPairs_eq (value : TermInfo → Payload (Term × β) → β) (pairs : List (Term × Term)) :
    foldPairs value pairs = pairs.map fun (k, v) => ((k, fold value k), (v, fold value v)) := by
  induction pairs with
  | nil => rfl
  | cons pair rest ih => simp [foldPairs, ih]

theorem foldPayload_eq (value : TermInfo → Payload (Term × β) → β) (p : Payload Term) :
    foldPayload value p = p.map fun t => (t, fold value t) := by
  cases p <;> simp [foldPayload, Payload.map, foldList_eq, foldOption_eq, foldPairs_eq]

/-- The defining equation of `fold`. -/
theorem fold_node (value : TermInfo → Payload (Term × β) → β) (info : TermInfo)
    (p : Payload Term) :
    fold value (.node info p) = value info (p.map fun t => (t, fold value t)) := by
  rw [fold, foldPayload_eq]

end Term

namespace Tree

/-- Whether the parent of a node's parent is a class definition. -/
def isMethodHead (tree : Tree) (node : Node) : Bool :=
  match node.parent.bind fun parent => (tree.parent parent).toOption.join with
  | none => false
  | some owner =>
    match tree.kind owner with
    | .ok kind => kind = .classDef
    | .error _ => false

/-- The term below a node, at most `fuel` levels deep. -/
def termWithin (tree : Tree) : (fuel : Nat) → NodeId → Except NodeError Term
  | 0, id => .error (.missing id.index)
  | fuel + 1, id => do
    let node ← tree.node id
    let payload ← node.payload.traverse (termWithin tree fuel)
    return .node ⟨id, node.tag, node.loc, node.comment, tree.isMethodHead node⟩ payload

/-- The term below a node. No path has more nodes than the tree. -/
def term (tree : Tree) (id : NodeId) : Except NodeError Term :=
  termWithin tree (tree.size + 1) id

end Tree

end TypedSyntax
