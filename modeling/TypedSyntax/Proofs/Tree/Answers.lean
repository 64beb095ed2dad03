import TypedSyntax.Proofs.Export.Subtree
import TypedSyntax.Python.Writer

/-!
# Answers about nodes

Walks, exports and renderings follow ids through a tree. They come to an end and
have a result for every node of the tree, and what they refuse is an id of
another tree.
-/

namespace TypedSyntax.Tree

open Relation

variable {tree : Tree} {id : NodeId} {g : NodeId → Term}

/-- Popping a stack of nodes and pushing the children of each, until the stack
is empty. There is no bound on the number of steps. -/
inductive Visits (tree : Tree) : List NodeId → List NodeId → Prop
  | done : Visits tree [] []
  | next {id cs stack ids} : tree.children id = .ok cs → Visits tree (cs ++ stack) ids →
      Visits tree (id :: stack) (id :: ids)

/-- Following child slots from a node down to the leaves, without a bound on the
depth. -/
inductive Unfolds (tree : Tree) : NodeId → Term → Prop
  | node {id node} {g : NodeId → Term} : tree.node id = .ok node →
      (∀ c ∈ node.payload.children, Unfolds tree c (g c)) →
      Unfolds tree id
        (.node ⟨id, node.tag, node.loc, node.comment, tree.isMethodHead node⟩ (node.payload.map g))

/-- A stack whose nodes can be visited before a rest of the stack. -/
theorem Visits.append {stack rest ids : List NodeId} (hrest : tree.Visits rest ids)
    (h : ∀ id ∈ stack, ∀ rest ids, tree.Visits rest ids →
      tree.Visits (id :: rest) (tree.preorder id ++ ids)) :
    tree.Visits (stack ++ rest) (stack.flatMap tree.preorder ++ ids) := by
  induction stack with
  | nil => exact hrest
  | cons id stack ih =>
      obtain ⟨hid, hstack⟩ := List.forall_mem_cons.mp h
      rw [List.cons_append, List.flatMap_cons, List.append_assoc]
      exact hid _ _ (ih hstack)

/-- The walk below a node ends, in front of every stack. -/
theorem Linked.visits (ht : Linked tree) (hid : tree.Has id) :
    tree.Visits [id] (tree.preorder id) := by
  have hall : ∀ rest ids, tree.Visits rest ids →
      tree.Visits (id :: rest) (tree.preorder id ++ ids) := by
    refine ht.induction (P := fun id => ∀ rest ids, tree.Visits rest ids →
      tree.Visits (id :: rest) (tree.preorder id ++ ids)) ?_ hid
    intro id hid ih rest ids hrest
    obtain ⟨cs, hs⟩ := exists_slots hid
    rw [ht.preorder_eq hs]
    apply Visits.next hs
    apply Visits.append hrest
    intro c hc
    exact ih c (ht.childOf_of_slot hs hc)
  simpa using hall [] [] Visits.done

/-- The term below a node is reached after finitely many slots. -/
theorem Cuts.unfolds (hg : tree.Cuts g) (hid : tree.Has id) : tree.Unfolds id (g id) := by
  refine hg.linked.induction (P := fun id => tree.Unfolds id (g id)) ?_ hid
  intro id hid ih
  obtain ⟨node, hnode⟩ := has_iff.mp hid
  rw [hg.node_eq hnode]
  apply Unfolds.node hnode
  intro c hc
  exact ih c (hg.linked.childOf_of_mem hnode hc)

/-- Every walk, export, comparison and rendering of a node has a result, and the
head of every function in its subtree is a prototype. -/
structure Answered (tree : Tree) (id : NodeId) : Prop where
  descendants : ∃ ids, tree.Visits [id] ids ∧ tree.descendants id = .ok ids
  term : ∃ t, tree.Unfolds id t ∧ tree.term id = .ok t
  toDatum : ∀ detail, ∃ d, tree.toDatum id detail = .ok d
  heads : ∀ n head body, ReflTransGen tree.ChildOf n id →
    tree.payload n = .ok (.function head body) →
      ∃ signature arguments, tree.payload head = .ok (.prototype signature arguments)
  structureEq : ∀ others j n, ((Workspace.run others).tree j).Has n →
    ∃ b, tree.structureEq id ((Workspace.run others).tree j) n = .ok b
  render : ∀ writer : Python.Writer, ∃ s, (writer.render tree id).1 = .ok s

/-- Every query about an id is refused because it belongs to another tree. -/
structure Refused (tree : Tree) (id : NodeId) : Prop where
  descendants : tree.descendants id = .error .foreign
  toDatum : ∀ detail, tree.toDatum id detail = .error .foreign
  structureEq : ∀ other n, tree.structureEq id other n = .error .foreign
  structureEq_right : ∀ (other : Tree) n d, other.toDatum n .simplified = .ok d →
    other.structureEq n tree id = .error .foreign
  render : ∀ writer : Python.Writer, writer.render tree id = (.error (.node .foreign), writer)

theorem Cuts.answered (hg : tree.Cuts g) (hid : tree.Has id) : Answered tree id where
  descendants := ⟨tree.preorder id, hg.linked.visits hid, hg.linked.descendants_eq hid⟩
  term := by
    obtain ⟨node, hnode⟩ := has_iff.mp hid
    exact ⟨g id, hg.unfolds hid, hg.term_eq hnode⟩
  toDatum := fun detail => ⟨_, hg.toDatum_eq hid detail⟩
  heads := by
    intro n head body _ hpayload
    obtain ⟨node, hnode, hfunction⟩ := payload_eq_ok_iff.mp hpayload
    obtain ⟨⟨proto, signature, arguments, hproto, hprototype⟩, -⟩ :=
      hg.wellFormed.function_slots hnode hfunction
    exact ⟨signature, arguments, payload_eq_ok_iff.mpr ⟨proto, hproto, hprototype⟩⟩
  structureEq := by
    intro others j n hn
    obtain ⟨f, hf⟩ := cuts_run others j
    rw [Tree.structureEq, hg.toDatum_eq hid, hf.toDatum_eq hn]
    exact ⟨_, rfl⟩
  render := by
    intro writer
    obtain ⟨node, hnode⟩ := has_iff.mp hid
    rw [Python.Writer.render, hg.term_eq hnode]
    exact ⟨_, rfl⟩

theorem node_eq_foreign (h : id.tree ≠ tree.id) : tree.node id = .error .foreign := by
  rw [Tree.node, if_neg h]

theorem refused_of_ne (h : id.tree ≠ tree.id) : Refused tree id := by
  have hnode := node_eq_foreign h
  have hterm : tree.term id = .error .foreign := by
    rw [Tree.term, termWithin, hnode]
    rfl
  have hdatum : ∀ detail, tree.toDatum id detail = .error .foreign := by
    intro detail
    rw [Tree.toDatum, hterm]
    rfl
  exact {
    descendants := by
      rw [Tree.descendants, visit, children, hnode]
      rfl
    toDatum := hdatum
    structureEq := by
      intro other n
      rw [Tree.structureEq, hdatum]
      rfl
    structureEq_right := by
      intro other n d hd
      rw [Tree.structureEq, hd, hdatum]
      rfl
    render := by
      intro writer
      rw [Python.Writer.render, hterm] }

theorem id_run (actions : List Workspace.Action) (i : Nat) :
    ((Workspace.run actions).tree i).id = i := by
  by_cases hi : i < (Workspace.run actions).trees.size
  · exact Workspace.numbered_run actions i hi
  · rw [Workspace.tree_of_not_lt hi]
    rfl

/-- After every run, whatever the writer rendered before, a node that was built
in a tree is answered for by this tree and refused by all others. -/
theorem answered_run (actions : List Workspace.Action) (i j : Nat) (id : NodeId)
    (hid : ((Workspace.run actions).tree j).Has id) :
    (i = j → Answered ((Workspace.run actions).tree i) id) ∧
      (i ≠ j → Refused ((Workspace.run actions).tree i) id) := by
  constructor
  · rintro rfl
    obtain ⟨g, hg⟩ := cuts_run actions i
    exact hg.answered hid
  · intro hij
    apply refused_of_ne
    rw [hid.1, id_run, id_run]
    exact Ne.symm hij

/-- A run that builds a class with a method, beside an empty tree. -/
def classWithMethod : List Workspace.Action :=
  [.newTree, .newTree,
    .build 0 (.argument ⟨"x", .any, .constant⟩ none),
    .build 0 (.prototype ⟨"m", .any, .global, .public, .constant⟩ [⟨0, 0⟩]),
    .build 0 (.block "body" []),
    .build 0 (.function ⟨0, 1⟩ ⟨0, 2⟩),
    .build 0 (.classDef ⟨"C", false, .public⟩ [] [] [] [⟨0, 3⟩])]

theorem answered_classWithMethod :
    let w := Workspace.run classWithMethod
    (w.tree 0).Has ⟨0, 4⟩ ∧
      ((w.tree 0).descendants ⟨0, 4⟩ = .ok [⟨0, 4⟩, ⟨0, 3⟩, ⟨0, 1⟩, ⟨0, 0⟩, ⟨0, 2⟩] ∧
        Answered (w.tree 0) ⟨0, 4⟩) ∧
      Refused (w.tree 1) ⟨0, 4⟩ := by
  intro w
  have hid : (w.tree 0).Has ⟨0, 4⟩ := ⟨rfl, by decide⟩
  exact ⟨hid, ⟨rfl, (answered_run classWithMethod 0 0 ⟨0, 4⟩ hid).1 rfl⟩,
    (answered_run classWithMethod 1 0 ⟨0, 4⟩ hid).2 (by decide)⟩

end TypedSyntax.Tree
