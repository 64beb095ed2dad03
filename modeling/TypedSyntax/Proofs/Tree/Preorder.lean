import TypedSyntax.Proofs.Tree.Terms
import TypedSyntax.Tree.Walk

/-!
# Preorder

The walk through a subtree visits a node and then, one after the other, the
subtrees of its children. It visits every node once.
-/

namespace TypedSyntax.Tree

open Relation

variable {tree : Tree} {id : NodeId} {cs : List NodeId}

/-- The nodes of a subtree in preorder, at most `fuel` levels deep. -/
def preorderWithin (tree : Tree) : (fuel : Nat) → NodeId → List NodeId
  | 0, _ => []
  | fuel + 1, id =>
    id :: ((tree.children id).toOption.getD []).flatMap (preorderWithin tree fuel)

/-- The nodes of a subtree in preorder. -/
def preorder (tree : Tree) (id : NodeId) : List NodeId :=
  tree.preorderWithin (tree.size + 1) id

theorem Linked.childOf_of_slot (ht : Linked tree) (hs : tree.Slots id cs) {c : NodeId}
    (hc : c ∈ cs) : tree.ChildOf c id :=
  ht.childOf_iff_slot.mpr ⟨cs, hs, hc⟩

theorem exists_slots (hid : tree.Has id) : ∃ cs, tree.Slots id cs := by
  obtain ⟨node, hnode⟩ := has_iff.mp hid
  exact ⟨_, slots_iff.mpr ⟨node, hnode, rfl⟩⟩

theorem preorderWithin_succ (hs : tree.Slots id cs) (fuel : Nat) :
    tree.preorderWithin (fuel + 1) id = id :: cs.flatMap (tree.preorderWithin fuel) := by
  rw [Slots] at hs
  rw [preorderWithin, hs]
  rfl

/-- With enough fuel the preorder does not depend on the fuel. -/
theorem Linked.preorderWithin_eq (ht : Linked tree) (hid : tree.Has id) :
    ∀ fuel ≥ tree.size + 1, tree.preorderWithin fuel id = tree.preorder id := by
  refine ht.descend
    (P := fun n id => ∀ fuel ≥ n, tree.preorderWithin fuel id = tree.preorderWithin n id) ?_ hid
  intro n id hid ih fuel hfuel
  obtain ⟨cs, hs⟩ := exists_slots hid
  obtain ⟨fuel, rfl⟩ := Nat.exists_eq_add_of_le' (Nat.le_trans (Nat.le_add_left 1 n) hfuel)
  rw [preorderWithin_succ hs, preorderWithin_succ hs]
  congr 1
  apply List.flatMap_congr
  intro c hc
  exact ih c (ht.childOf_of_slot hs hc) fuel (by omega)

/-- A node comes before the subtrees of its children. -/
theorem Linked.preorder_eq (ht : Linked tree) (hs : tree.Slots id cs) :
    tree.preorder id = id :: cs.flatMap tree.preorder := by
  rw [← ht.preorderWithin_eq hs.has (tree.size + 2) (by omega), preorderWithin_succ hs]
  rfl

/-- The nodes of a subtree are its root and what lies below. -/
theorem Linked.below_of_mem_preorder (ht : Linked tree) (hid : tree.Has id) :
    ∀ n ∈ tree.preorder id, ReflTransGen tree.ChildOf n id := by
  refine ht.induction (P := fun id => ∀ n ∈ tree.preorder id, ReflTransGen tree.ChildOf n id)
    ?_ hid
  intro id hid ih n hn
  obtain ⟨cs, hs⟩ := exists_slots hid
  rw [ht.preorder_eq hs] at hn
  cases hn with
  | head => exact ReflTransGen.refl
  | tail _ hn =>
      obtain ⟨c, hc, hn⟩ := List.mem_flatMap.mp hn
      have hchild := ht.childOf_of_slot hs hc
      exact (ih c hchild n hn).tail hchild

theorem Linked.has_of_mem_preorder (ht : Linked tree) (hid : tree.Has id) {n : NodeId}
    (hn : n ∈ tree.preorder id) : tree.Has n := by
  cases ReflTransGen.cases_head (ht.below_of_mem_preorder hid n hn) with
  | inl he => exact he ▸ hid
  | inr h =>
      obtain ⟨p, hp, -⟩ := h
      exact hp.has

theorem rightUnique_childOf (tree : Tree) : Relator.RightUnique tree.ChildOf :=
  fun _ _ _ h h' => Option.some.inj (Except.ok.inj (h.symm.trans h'))

/-- Nothing lies below two children of a node. -/
theorem Linked.not_below_both (ht : Linked tree) {c c' n : NodeId} (hc : tree.ChildOf c id)
    (hc' : tree.ChildOf c' id) (hne : c ≠ c') (hn : ReflTransGen tree.ChildOf n c) :
    ¬ ReflTransGen tree.ChildOf n c' := by
  intro hn'
  -- A path from one child to another would lead through their parent, and back to it.
  have hpath : ∀ {a b}, tree.ChildOf a id → tree.ChildOf b id → a ≠ b →
      ¬ ReflTransGen tree.ChildOf a b := by
    intro a b ha hb hab hup
    rcases ReflTransGen.cases_head hup with he | ⟨p, hp, hup⟩
    · exact hab he
    · obtain rfl := rightUnique_childOf tree hp ha
      exact ht.acyclic p (TransGen.tail' hup hb)
  rcases ReflTransGen.total_of_right_unique (rightUnique_childOf tree) hn hn' with h | h
  · exact hpath hc hc' hne h
  · exact hpath hc' hc hne.symm h

theorem Linked.nodup_preorder (ht : Linked tree) (hid : tree.Has id) :
    (tree.preorder id).Nodup := by
  refine ht.induction (P := fun id => (tree.preorder id).Nodup) ?_ hid
  intro id hid ih
  obtain ⟨cs, hs⟩ := exists_slots hid
  have hbelow : ∀ c ∈ cs, ∀ n ∈ tree.preorder c, ReflTransGen tree.ChildOf n c :=
    fun c hc => ht.below_of_mem_preorder (ht.present hs c hc)
  rw [ht.preorder_eq hs, List.nodup_cons, List.nodup_flatMap]
  refine ⟨?_, fun c hc => ih c (ht.childOf_of_slot hs hc), ?_⟩
  · intro hmem
    obtain ⟨c, hc, hn⟩ := List.mem_flatMap.mp hmem
    exact ht.acyclic id (TransGen.tail' (hbelow c hc id hn) (ht.childOf_of_slot hs hc))
  · have hpairs : cs.Pairwise fun c c' => c ≠ c' := ht.nodup hs
    refine hpairs.imp_of_mem fun {c c'} hc hc' hne => ?_
    intro n hn hn'
    exact ht.not_below_both (ht.childOf_of_slot hs hc) (ht.childOf_of_slot hs hc') hne
      (hbelow c hc n hn) (hbelow c' hc' n hn')

theorem Linked.length_preorder_le (ht : Linked tree) (hid : tree.Has id) :
    (tree.preorder id).length ≤ tree.size :=
  length_le_size (ht.nodup_preorder hid) fun _ hn => ht.has_of_mem_preorder hid hn

/-- A stack is visited subtree by subtree if the fuel suffices for all of
them. -/
theorem Linked.visit_eq (ht : Linked tree) (fuel : Nat) (stack : List NodeId)
    (hstack : ∀ id ∈ stack, tree.Has id) (hfuel : (stack.flatMap tree.preorder).length ≤ fuel) :
    tree.visit fuel stack = .ok (stack.flatMap tree.preorder) := by
  induction fuel generalizing stack with
  | zero =>
      cases stack with
      | nil => rfl
      | cons id stack =>
          obtain ⟨cs, hs⟩ := exists_slots (hstack id List.mem_cons_self)
          simp [ht.preorder_eq hs] at hfuel
  | succ fuel ih =>
      cases stack with
      | nil => rfl
      | cons id stack =>
          obtain ⟨hid, hrest⟩ := List.forall_mem_cons.mp hstack
          obtain ⟨cs, hs⟩ := exists_slots hid
          -- The children of a node take its place on the stack.
          have hall : (id :: stack).flatMap tree.preorder =
              id :: (cs ++ stack).flatMap tree.preorder := by
            rw [List.flatMap_cons, List.flatMap_append, ht.preorder_eq hs, List.cons_append]
          rw [hall, List.length_cons] at hfuel
          have hvisit := ih (cs ++ stack) (List.forall_mem_append.mpr ⟨ht.present hs, hrest⟩)
            (Nat.le_of_succ_le_succ hfuel)
          rw [Slots] at hs
          rw [visit, hs, hall]
          change (do
            let ids ← tree.visit fuel (cs ++ stack)
            return id :: ids) = _
          rw [hvisit]
          rfl

/-- The walk below a node visits its subtree in preorder. -/
theorem Linked.descendants_eq (ht : Linked tree) (hid : tree.Has id) :
    tree.descendants id = .ok (tree.preorder id) := by
  have hlength := ht.length_preorder_le hid
  have hvisit := ht.visit_eq (tree.size + 1) [id] (List.forall_mem_singleton.mpr hid)
    (by simpa using Nat.le_succ_of_le hlength)
  rwa [List.flatMap_singleton] at hvisit

end TypedSyntax.Tree
