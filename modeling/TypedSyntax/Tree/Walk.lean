import TypedSyntax.Tree.Basic

/-!
# Walks through a tree

Upwards along parents, and downwards through child slots in preorder. The
fuel of a walk is the number of nodes.
-/

namespace TypedSyntax.Tree

/-- The chain of parents from a node on, at most `fuel` of them. -/
def parentChain (tree : Tree) : (fuel : Nat) → Option NodeId → List NodeId
  | 0, _ => []
  | _ + 1, none => []
  | fuel + 1, some id =>
    id :: parentChain tree fuel ((tree.parent id).toOption.join)

/-- The ancestors of a node, nearest first. A node of another tree has none. -/
def ancestors (tree : Tree) (id : NodeId) : List NodeId :=
  parentChain tree tree.size ((tree.parent id).toOption.join)

/-- The nearest ancestor of a kind. -/
def enclosing? (tree : Tree) (id : NodeId) (kind : Kind) : Option NodeId :=
  (tree.ancestors id).find? fun ancestor =>
    match tree.kind ancestor with
    | .ok found => found = kind
    | .error _ => false

/-- Visits the nodes of a stack in preorder, at most `fuel` of them. -/
def visit (tree : Tree) : (fuel : Nat) → List NodeId → Except NodeError (List NodeId)
  | _, [] => .ok []
  | 0, _ :: _ => .ok []
  | fuel + 1, id :: stack => do
    let children ← tree.children id
    return id :: (← visit tree fuel (children ++ stack))

/-- A node and everything below it in preorder. -/
def descendants (tree : Tree) (root : NodeId) : Except NodeError (List NodeId) :=
  visit tree (tree.size + 1) [root]

end TypedSyntax.Tree
