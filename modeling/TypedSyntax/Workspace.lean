import TypedSyntax.Tree.Build

/-!
# Workspaces

Several trees that share one supply of instance tags. A tree is named by its
position, and every node that is built gets the next tag.
-/

namespace TypedSyntax

structure Workspace where
  trees : Array Tree
  nextTag : Nat
deriving Repr

namespace Workspace

def empty : Workspace := ⟨#[], 1⟩

/-- Adds a tree and returns its id. -/
def newTree (w : Workspace) : Workspace × Nat :=
  ({ w with trees := w.trees.push (.empty w.trees.size) }, w.trees.size)

/-- The tree with an id. -/
def tree (w : Workspace) (id : Nat) : Tree :=
  w.trees.getD id (.empty id)

/-- Replaces the tree with its id. -/
def put (w : Workspace) (tree : Tree) : Workspace :=
  { w with trees := w.trees.modify tree.id fun _ => tree }

/-- Builds a node in a tree. Only a node that is built uses a tag. -/
def build (w : Workspace) (id : Nat) (draft : Draft) : Workspace × Tree.Checked NodeId :=
  match (w.tree id).build w.nextTag draft with
  | (tree, .ok node) => ({ w.put tree with nextTag := w.nextTag + 1 }, .ok node)
  | (tree, .error e) => (w.put tree, .error e)

/-- Sets the location of the next node of a tree. -/
def atLocation (w : Workspace) (id : Nat) (loc : SourceLocation) : Workspace :=
  w.put ((w.tree id).atLocation loc)

/-- Sets the comment of a node of a tree. -/
def setComment (w : Workspace) (id : Nat) (node : NodeId) (comment : String) :
    Except NodeError Workspace :=
  ((w.tree id).setComment node comment).map w.put

/-- Adds a node at the end of a block or module of a tree. -/
def append (w : Workspace) (id : Nat) (block child : NodeId) : Tree.Checked Workspace :=
  ((w.tree id).append block child).map w.put

end Workspace

end TypedSyntax
