import TypedSyntax.Error
import TypedSyntax.Payload
import TypedSyntax.SourceLocation

/-!
# Trees

A tree owns its nodes in an array and refers to them by tree and index. A
child slot names a node, and a node names its parent.
-/

namespace TypedSyntax

/-- A node of some tree. -/
structure NodeId where
  tree : Nat
  index : Nat
deriving DecidableEq, Repr

structure Node where
  tag : Nat
  loc : SourceLocation
  parent : Option NodeId
  comment : String
  payload : Payload NodeId
deriving Repr

def Node.kind (node : Node) : Kind :=
  node.payload.kind

/-- A tree. The pending location is given to the next node that is built. -/
structure Tree where
  id : Nat
  nodes : Array Node
  pending : Option SourceLocation
deriving Repr

namespace Tree

/-- The tree without nodes. -/
def empty (id : Nat) : Tree := ⟨id, #[], none⟩

instance : Inhabited Tree := ⟨empty 0⟩

def size (tree : Tree) : Nat :=
  tree.nodes.size

/-- The node that an id of this tree names. -/
def node (tree : Tree) (id : NodeId) : Except NodeError Node :=
  if id.tree = tree.id then
    match tree.nodes[id.index]? with
    | some node => .ok node
    | none => .error (.missing id.index)
  else
    .error .foreign

def kind (tree : Tree) (id : NodeId) : Except NodeError Kind :=
  (tree.node id).map (·.kind)

def payload (tree : Tree) (id : NodeId) : Except NodeError (Payload NodeId) :=
  (tree.node id).map (·.payload)

def parent (tree : Tree) (id : NodeId) : Except NodeError (Option NodeId) :=
  (tree.node id).map (·.parent)

def children (tree : Tree) (id : NodeId) : Except NodeError (List NodeId) :=
  (tree.node id).map (·.payload.children)

/-- The value type of a node, if it is an expression. -/
def typeOf (tree : Tree) (id : NodeId) : Except NodeError (Option DataType) :=
  (tree.node id).map (·.payload.valueType?)

/-- The ids and nodes of a tree in the order in which they were built. -/
def entries (tree : Tree) : List (NodeId × Node) :=
  tree.nodes.toList.zipIdx.map fun (node, index) => (⟨tree.id, index⟩, node)

/-- Changes the node at an index. -/
def modify (tree : Tree) (index : Nat) (change : Node → Node) : Tree :=
  { tree with nodes := tree.nodes.modify index change }

/-- Sets the location of the next node. -/
def atLocation (tree : Tree) (loc : SourceLocation) : Tree :=
  { tree with pending := some loc }

/-- Sets the comment of a node. -/
def setComment (tree : Tree) (id : NodeId) (comment : String) : Except NodeError Tree := do
  let _ ← tree.node id
  return tree.modify id.index fun node => { node with comment }

end Tree

end TypedSyntax
