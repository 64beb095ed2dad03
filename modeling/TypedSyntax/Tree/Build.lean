import TypedSyntax.Tree.Check
import TypedSyntax.Tree.Walk

/-!
# Building trees

A node is added at the end of a tree after its draft and its children are
checked. A refused draft changes nothing but the pending location, and a
refused append nothing at all.
-/

namespace TypedSyntax.Tree

/-- Checks that a node may become the child of a new node: it is a node of
this tree without a parent and stands in no earlier slot. -/
def expectFree (tree : Tree) (earlier : List NodeId) (child : NodeId) : Checked Unit := do
  let node ← look (tree.node child)
  if node.parent.isSome ∨ child ∈ earlier then .error (.alreadyAttached node.kind)
  else return ()

/-- Checks the children of a new node one after the other. -/
def expectAllFree (tree : Tree) : (earlier children : List NodeId) → Checked Unit
  | _, [] => .ok ()
  | earlier, child :: children => do
    expectFree tree earlier child
    expectAllFree tree (child :: earlier) children

/-- The location that the next node gets. -/
def nextLocation (tree : Tree) : SourceLocation :=
  tree.pending.getD .unknown

/-- The tree without its pending location. -/
def clearPending (tree : Tree) : Tree :=
  { tree with pending := none }

/-- Sets the parent of some nodes. -/
def attach (tree : Tree) (parent : NodeId) (children : List NodeId) : Tree :=
  children.foldl
    (fun tree child => tree.modify child.index fun node => { node with parent := some parent })
    tree

/-- The id of the next node. -/
def nextId (tree : Tree) : NodeId :=
  ⟨tree.id, tree.size⟩

/-- Adds a node at the end and makes it the parent of its children. -/
def add (tree : Tree) (node : Node) : Tree :=
  attach { tree with nodes := tree.nodes.push node } tree.nextId node.payload.children

/-- Checks a draft and the nodes in its slots. -/
def admitted (tree : Tree) (draft : Draft) : Checked (Payload NodeId) := do
  let payload ← tree.payload? draft
  expectAllFree tree [] payload.children
  return payload

/-- Builds a node with an instance tag. The pending location is used up in any
case. -/
def build (tree : Tree) (tag : Nat) (draft : Draft) : Tree × Checked NodeId :=
  match tree.admitted draft with
  | .error e => (tree.clearPending, .error e)
  | .ok payload =>
    let node : Node := ⟨tag, tree.nextLocation, none, "", payload⟩
    (tree.clearPending.add node, .ok tree.nextId)

/-- Adds a node at the end of a block or module. -/
def append (tree : Tree) (block child : NodeId) : Checked Tree := do
  let blockKind ← look (tree.kind block)
  if blockKind ≠ .block ∧ blockKind ≠ .module then .error (.notABlock blockKind)
  else do
    let node ← look (tree.node child)
    expectStatementKind node.kind
    if node.parent.isSome then .error (.alreadyAttached node.kind)
    else if child = block ∨ child ∈ tree.ancestors block then .error (.cycle node.kind)
    else
      let extended := tree.modify block.index fun node =>
        { node with payload := node.payload.addStatement child }
      return attach extended block [child]

end TypedSyntax.Tree
