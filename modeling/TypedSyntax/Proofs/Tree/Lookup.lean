import Mathlib.Data.List.Basic
import TypedSyntax.Proofs.Outcome
import TypedSyntax.Tree.Build

/-!
# Nodes after a change

What each change of a tree does to the node that an id names, to the number
of nodes and to the pending location. The changes are described by equations
over look-ups, so that no later proof opens the array of nodes.
-/

namespace TypedSyntax

/-- The node below another parent. -/
def Node.under (node : Node) (parent : NodeId) : Node :=
  { node with parent := some parent }

@[simp] theorem Node.under_parent (node : Node) (p : NodeId) :
    (node.under p).parent = some p := rfl

@[simp] theorem Node.under_payload (node : Node) (p : NodeId) :
    (node.under p).payload = node.payload := rfl

/-- The node with one more statement. -/
def Node.extended (node : Node) (child : NodeId) : Node :=
  { node with payload := node.payload.addStatement child }

@[simp] theorem Node.extended_parent (node : Node) (c : NodeId) :
    (node.extended c).parent = node.parent := rfl

@[simp] theorem Node.extended_payload (node : Node) (c : NodeId) :
    (node.extended c).payload = node.payload.addStatement c := rfl

namespace Tree

variable {tree : Tree} {id : NodeId} {node : Node}

/-- Whether an id names a node of the tree. -/
def Has (tree : Tree) (id : NodeId) : Prop :=
  id.tree = tree.id ∧ id.index < tree.size

/-- An id is looked up by its index, in its own tree only. -/
theorem node_eq_ok_iff :
    tree.node id = .ok node ↔ id.tree = tree.id ∧ tree.nodes[id.index]? = some node := by
  unfold Tree.node
  by_cases htree : id.tree = tree.id
  · cases hnode : tree.nodes[id.index]? <;> simp [htree]
  · simp [htree]

theorem has_iff : tree.Has id ↔ ∃ node, tree.node id = .ok node := by
  simp only [Has, size, node_eq_ok_iff, exists_and_left]
  simp [Array.getElem?_eq_some_iff]

theorem has_of_node (h : tree.node id = .ok node) : tree.Has id :=
  has_iff.mpr ⟨node, h⟩

/-- Ids of nodes of one tree differ in their index. -/
theorem Has.eq_iff_index {other : NodeId} (h : tree.Has id) (ho : tree.Has other) :
    id = other ↔ id.index = other.index := by
  obtain ⟨t, i⟩ := id
  obtain ⟨t', i'⟩ := other
  have ht : t = t' := h.1.trans ho.1.symm
  simp [ht]

/-- The next id names no node yet. -/
theorem not_has_nextId : ¬ tree.Has tree.nextId := by
  simp [Has, nextId]

theorem Has.ne_nextId (h : tree.Has id) : id ≠ tree.nextId :=
  fun he => not_has_nextId (he ▸ h)

@[simp] theorem id_attach (p : NodeId) (cs : List NodeId) : (tree.attach p cs).id = tree.id := by
  unfold attach
  induction cs generalizing tree with
  | nil => rfl
  | cons c cs ih => exact @ih (tree.modify c.index _)

@[simp] theorem pending_attach (p : NodeId) (cs : List NodeId) :
    (tree.attach p cs).pending = tree.pending := by
  unfold attach
  induction cs generalizing tree with
  | nil => rfl
  | cons c cs ih => exact @ih (tree.modify c.index _)

@[simp] theorem size_modify (i : Nat) (f : Node → Node) : (tree.modify i f).size = tree.size := by
  simp [modify, size]

@[simp] theorem size_attach (p : NodeId) (cs : List NodeId) :
    (tree.attach p cs).size = tree.size := by
  unfold attach
  induction cs generalizing tree with
  | nil => rfl
  | cons c cs ih => exact (@ih (tree.modify c.index _)).trans (size_modify _ _)

theorem node_modify (i : Nat) (f : Node → Node) :
    (tree.modify i f).node id =
      (tree.node id).map fun n => if id.index = i then f n else n := by
  unfold Tree.node modify
  by_cases htree : id.tree = tree.id
  · by_cases hi : i = id.index
    · cases hnode : tree.nodes[id.index]? <;>
        simp [htree, hi, hnode, Array.getElem?_modify, Except.map]
    · cases hnode : tree.nodes[id.index]? <;>
        simp [htree, hi, Ne.symm hi, hnode, Array.getElem?_modify, Except.map]
  · simp [htree, Except.map]

private theorem node_attach_index (p : NodeId) (cs : List NodeId) :
    (tree.attach p cs).node id =
      (tree.node id).map fun n => if id.index ∈ cs.map (·.index) then n.under p else n := by
  induction cs generalizing tree with
  | nil => cases h : tree.node id <;> simp [attach, h, Except.map]
  | cons c cs ih =>
      change ((tree.modify c.index fun n => n.under p).attach p cs).node id = _
      rw [ih, node_modify]
      cases tree.node id with
      | error e => rfl
      | ok n =>
          by_cases hc : id.index = c.index
          · by_cases hcs : id.index ∈ cs.map (·.index) <;>
              simp [Except.map, hc, Node.under]
          · simp [Except.map, hc]

/-- Attaching nodes of the tree sets the parent of exactly those. -/
theorem node_attach {cs : List NodeId} (hcs : ∀ c ∈ cs, tree.Has c) (p : NodeId) :
    (tree.attach p cs).node id =
      (tree.node id).map fun n => if id ∈ cs then n.under p else n := by
  rw [node_attach_index]
  cases hnode : tree.node id with
  | error e => rfl
  | ok n =>
      have hid := has_of_node hnode
      have hmem : id.index ∈ cs.map (·.index) ↔ id ∈ cs := by
        simp only [List.mem_map]
        constructor
        · rintro ⟨c, hc, hi⟩
          exact (hid.eq_iff_index (hcs c hc)).mpr hi.symm ▸ hc
        · intro h
          exact ⟨id, h, rfl⟩
      simp [Except.map, hmem]

theorem node_push :
    ({ tree with nodes := tree.nodes.push node } : Tree).node id =
      if id = tree.nextId then .ok node else tree.node id := by
  obtain ⟨t, i⟩ := id
  by_cases ht : t = tree.id
  · by_cases hi : i = tree.nodes.size <;>
      simp [Tree.node, nextId, size, ht, hi, Array.getElem?_push]
  · simp [Tree.node, nextId, ht]

@[simp] theorem id_add (node : Node) : (tree.add node).id = tree.id :=
  id_attach _ _

@[simp] theorem pending_add (node : Node) : (tree.add node).pending = tree.pending :=
  pending_attach _ _

@[simp] theorem size_add (node : Node) : (tree.add node).size = tree.size + 1 :=
  (size_attach _ _).trans (by simp [size])

/-- Adding a node leaves the others as they are, except for the parent of the
new node's children. -/
theorem node_add (h : ∀ c ∈ node.payload.children, tree.Has c) :
    (tree.add node).node id =
      if id = tree.nextId then .ok node
      else (tree.node id).map fun n =>
        if id ∈ node.payload.children then n.under tree.nextId else n := by
  have hpush : ∀ c ∈ node.payload.children,
      ({ tree with nodes := tree.nodes.push node } : Tree).Has c := by
    intro c hc
    exact ⟨(h c hc).1, by simpa [size] using Nat.lt_succ_of_lt (h c hc).2⟩
  rw [add, node_attach hpush, node_push]
  by_cases hid : id = tree.nextId
  · have hnew : tree.nextId ∉ node.payload.children :=
      fun hmem => not_has_nextId (h _ hmem)
    simp [hid, hnew, Except.map]
  · simp [hid]

@[simp] theorem node_clearPending : tree.clearPending.node id = tree.node id := rfl

end Tree

end TypedSyntax
