import TypedSyntax.Tree.Basic

/-!
# Symbol tables

A stack of named scopes that bind names to nodes. Inner bindings hide outer
ones. A guarded scope is left by its guard, which also leaves the scopes that
are still open inside it.
-/

namespace TypedSyntax

/-- A scope and its bindings, each name at most once. -/
structure Scope where
  name : String
  bindings : List (String × NodeId)
deriving DecidableEq, Repr

namespace Scope

def new (name : String) : Scope := ⟨name, []⟩

def get? (scope : Scope) (name : String) : Option NodeId :=
  (scope.bindings.find? (·.1 == name)).map (·.2)

def contains (scope : Scope) (name : String) : Bool :=
  scope.bindings.any (·.1 == name)

def size (scope : Scope) : Nat :=
  scope.bindings.length

/-- Binds a name that is not bound. -/
def add (scope : Scope) (name : String) (node : NodeId) : Scope :=
  { scope with bindings := scope.bindings ++ [(name, node)] }

/-- Changes the binding of a name. -/
def rebind (scope : Scope) (name : String) (node : NodeId) : Scope :=
  { scope with bindings := scope.bindings.map fun binding =>
      if binding.1 == name then (name, node) else binding }

end Scope

/-- A stack of scopes, the innermost first and the root last. The innermost
`depth - floor` scopes can be popped. -/
structure SymbolTable where
  current : Scope
  outer : List Scope
  floor : Nat
deriving DecidableEq, Repr

namespace SymbolTable

/-- The name of the scope that every table starts with. -/
def rootName : String := "root"

def new : SymbolTable := ⟨.new rootName, [], 1⟩

instance : Inhabited SymbolTable := ⟨new⟩

/-- All scopes, the innermost first. -/
def stack (table : SymbolTable) : List Scope :=
  table.current :: table.outer

/-- The number of scopes with the root. -/
def depth (table : SymbolTable) : Nat :=
  table.stack.length

/-- The scopes from the root inwards. -/
def scopes (table : SymbolTable) : List Scope :=
  table.stack.reverse

/-- Binds a name in the innermost scope. -/
def define (table : SymbolTable) (name : String) (node : NodeId) :
    Except ScopeError SymbolTable :=
  if table.current.contains name then
    .error (.duplicateBinding name table.current.name)
  else
    .ok { table with current := table.current.add name node }

/-- Rebinds a name in the first of some scopes that binds it. -/
def rebindFirst (name : String) (node : NodeId) : List Scope → List Scope
  | [] => []
  | scope :: rest =>
    if scope.contains name then scope.rebind name node :: rest
    else scope :: rebindFirst name node rest

/-- Rebinds a visible name in the scope where it is found. -/
def update (table : SymbolTable) (name : String) (node : NodeId) :
    Except ScopeError SymbolTable :=
  if table.current.contains name then
    .ok { table with current := table.current.rebind name node }
  else if table.outer.any (·.contains name) then
    .ok { table with outer := rebindFirst name node table.outer }
  else
    .error (.unboundName name)

/-- The innermost binding of a name. -/
def lookup (table : SymbolTable) (name : String) : Except ScopeError NodeId :=
  match table.stack.findSome? (·.get? name) with
  | some node => .ok node
  | none => .error (.unboundName name)

def containsLocal (table : SymbolTable) (name : String) : Bool :=
  table.current.contains name

/-- Opens a scope. -/
def push (table : SymbolTable) (name : String) : SymbolTable :=
  { table with current := .new name, outer := table.stack }

/-- Closes the innermost scope, unless it is the root or guarded. -/
def pop (table : SymbolTable) : Except ScopeError (Scope × SymbolTable) :=
  match table.outer with
  | [] => .error .rootScope
  | next :: rest =>
    if table.depth ≤ table.floor then .error (.guardedScope table.current.name)
    else .ok (table.current, { table with current := next, outer := rest })

/-- Opens a guarded scope. -/
def enter (table : SymbolTable) (name : String) : SymbolTable :=
  let inner := table.push name
  { inner with floor := inner.depth }

/-- Leaves the innermost guarded scope and everything open inside it, and
restores the floor from before. -/
def leave (table : SymbolTable) (outerFloor : Nat) : SymbolTable :=
  match table.stack.drop (table.depth - (table.floor - 1)) with
  | current :: outer => ⟨current, outer, outerFloor⟩
  | [] => { table with floor := outerFloor }

/-- Runs an action inside a guarded scope. -/
def withScope {α : Type} (table : SymbolTable) (name : String)
    (action : SymbolTable → α × SymbolTable) : α × SymbolTable :=
  let (result, inner) := action (table.enter name)
  (result, inner.leave table.floor)

end SymbolTable

end TypedSyntax
