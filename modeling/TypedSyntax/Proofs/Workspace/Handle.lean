import TypedSyntax.Proofs.Tree.Answers

/-!
# Handles

What a node is at a later time. It keeps its kind, value type, location and
tag; it gets a parent at most once, and only a block or module gets further
children, at the end of its list.
-/

namespace TypedSyntax

theorem Payload.valueType?_addStatement {α : Type} (p : Payload α) (child : α) :
    (p.addStatement child).valueType? = p.valueType? := by
  cases p <;> rfl

/-- The second node is the first at a later time, after some nodes were added
to its children. -/
structure Node.Persists (old : Node) (added : List NodeId) (new : Node) : Prop where
  kind_eq : new.kind = old.kind
  valueType_eq : new.payload.valueType? = old.payload.valueType?
  loc_eq : new.loc = old.loc
  tag_eq : new.tag = old.tag
  parent_eq : ∀ p, old.parent = some p → new.parent = some p
  children_eq : new.payload.children = old.payload.children ++ added
  payload_eq : old.kind ∉ [Kind.block, .module] → added = [] ∧ new.payload = old.payload

namespace Node

variable {old mid new : Node} {added more : List NodeId}

theorem Persists.refl (node : Node) : node.Persists [] node where
  kind_eq := rfl
  valueType_eq := rfl
  loc_eq := rfl
  tag_eq := rfl
  parent_eq := fun _ h => h
  children_eq := (List.append_nil _).symm
  payload_eq := fun _ => ⟨rfl, rfl⟩

/-- What a node gains in two runs it gains in both together. -/
theorem Persists.trans (h : old.Persists added mid) (h' : mid.Persists more new) :
    old.Persists (added ++ more) new where
  kind_eq := h'.kind_eq.trans h.kind_eq
  valueType_eq := h'.valueType_eq.trans h.valueType_eq
  loc_eq := h'.loc_eq.trans h.loc_eq
  tag_eq := h'.tag_eq.trans h.tag_eq
  parent_eq := fun p hp => h'.parent_eq p (h.parent_eq p hp)
  children_eq := by rw [h'.children_eq, h.children_eq, List.append_assoc]
  payload_eq := by
    intro hkind
    obtain ⟨rfl, hpayload⟩ := h.payload_eq hkind
    obtain ⟨rfl, hpayload'⟩ := h'.payload_eq (h.kind_eq ▸ hkind)
    exact ⟨rfl, hpayload'.trans hpayload⟩

/-- A root gets a parent. -/
theorem persists_under (h : old.parent = none) (p : NodeId) : old.Persists [] (old.under p) :=
  { Persists.refl old with
    parent_eq := by
      intro q hq
      rw [h] at hq
      cases hq }

theorem persists_comment (node : Node) (comment : String) :
    node.Persists [] { node with comment } :=
  { Persists.refl node with }

/-- A block or module gets a statement. -/
theorem persists_extended (h : old.kind ∈ [Kind.block, .module]) (child : NodeId) :
    old.Persists [child] (old.extended child) where
  kind_eq := Tree.kind_addStatement _ _
  valueType_eq := Payload.valueType?_addStatement _ _
  loc_eq := rfl
  tag_eq := rfl
  parent_eq := fun _ hp => hp
  children_eq := Payload.children_addStatement child (by simpa [Node.kind] using h)
  payload_eq := fun hkind => (hkind h).elim

end Node

namespace Workspace

open TypedSyntax.Tree

variable {w after : Workspace} {a : Action} {o : Outcome} {i : Nat} {id : NodeId}

/-- The call adds a node to the tree in one place, or to a block of it. -/
def Extends (i : Nat) : Action → Outcome → Prop
  | .build j _, .built _ => j = i
  | .append j _ _, .done => j = i
  | _, _ => False

/-- What a call can do to the tree in one place. -/
inductive Change (i : Nat) (tree : Tree) : Action → Outcome → Tree → Prop
  | kept {a o tree'} : tree'.id = tree.id → tree'.nodes = tree.nodes → ¬ Extends i a o →
      Change i tree a o tree'
  | grown {draft payload tag tree'} : tree.payload? draft = .ok payload →
      tree.Grown tree' (tree.newNode tag payload) →
      Change i tree (.build i draft) (.built tree.nextId) tree'
  | lengthened {block child tree'} : tree.Lengthened tree' block child →
      Change i tree (.append i block child) .done tree'
  | commented {node comment tree'} : tree.Commented tree' node comment →
      Change i tree (.setComment i node comment) .done tree'

/-- The tree in one place after another tree was put in some place. -/
theorem tree_withTree_cases (w : Workspace) (id : Nat) (tree : Tree) (i : Nat) :
    (i = id ∧ (w.withTree id tree).tree i = tree) ∨
      ((id < w.trees.size → i ≠ id) ∧ (w.withTree id tree).tree i = w.tree i) := by
  by_cases hid : id < w.trees.size
  · rw [tree_withTree hid]
    by_cases hi : i = id
    · exact Or.inl ⟨hi, if_pos hi⟩
    · exact Or.inr ⟨fun _ => hi, if_neg hi⟩
  · exact Or.inr ⟨fun h => (hid h).elim, by simp [withTree, Array.setIfInBounds, hid]⟩

/-- The effect of a call on the tree in one place. -/
theorem Effect.change (h : Effect w a o after) (hknown : Extends i a o → w.knows a = true) :
    Change i (w.tree i) a o (after.tree i) := by
  cases h with
  | @unknown a hunknown =>
      apply Change.kept rfl rfl
      intro hextends
      rw [hknown hextends] at hunknown
      cases hunknown
  | unappended | uncommented => exact Change.kept rfl rfl not_false
  | opened =>
      rw [tree_push_empty]
      exact Change.kept rfl rfl not_false
  | @unbuilt id =>
      rcases tree_withTree_cases w id { w.tree id with pending := none } i with
        ⟨rfl, htree⟩ | ⟨-, htree⟩ <;> rw [htree] <;> exact Change.kept rfl rfl not_false
  | @located id loc =>
      rcases tree_withTree_cases w id { w.tree id with pending := some loc } i with
        ⟨rfl, htree⟩ | ⟨-, htree⟩ <;> rw [htree] <;> exact Change.kept rfl rfl not_false
  | @built id draft payload tree hpayload hgrown =>
      change Change i (w.tree i) _ _ ((w.withTree id tree).tree i)
      rcases tree_withTree_cases w id tree i with ⟨rfl, htree⟩ | ⟨hother, htree⟩
      · rw [htree]
        exact Change.grown hpayload hgrown
      · rw [htree]
        apply Change.kept rfl rfl
        intro hi
        exact hother (of_decide_eq_true (hknown hi)) (Eq.symm hi)
  | @appended id block child tree hlong =>
      rcases tree_withTree_cases w id tree i with ⟨rfl, htree⟩ | ⟨hother, htree⟩
      · rw [htree]
        exact Change.lengthened hlong
      · rw [htree]
        apply Change.kept rfl rfl
        intro hi
        exact hother (of_decide_eq_true (hknown hi)) (Eq.symm hi)
  | @commented id node comment tree hcommented =>
      rcases tree_withTree_cases w id tree i with ⟨rfl, htree⟩ | ⟨-, htree⟩
      · rw [htree]
        exact Change.commented hcommented
      · rw [htree]
        exact Change.kept rfl rfl not_false

/-- Only a call on a tree that exists adds a node. -/
theorem knows_of_extends (h : Extends i a (w.perform a).1) : w.knows a = true := by
  by_contra hunknown
  rw [perform, if_neg hunknown] at h
  cases a <;> exact h

/-- The effect of a call after a run on the tree in one place. -/
theorem change_run (actions : List Action) (a : Action) (i : Nat) :
    Change i ((run actions).tree i) a ((run actions).perform a).1
      ((run (actions ++ [a])).tree i) := by
  rw [run_concat]
  exact (effect_perform (numbered_run actions) a).change knows_of_extends

/-! ## The nodes that a block gets -/

/-- The node that a call adds to a block, if it succeeds. -/
def appendedBy (i : Nat) (block : NodeId) : Action → Outcome → List NodeId
  | .append j parent child, .done => if j = i ∧ parent = block then [child] else []
  | _, _ => []

/-- The nodes that the successful calls of a run add to a block, in the order of
the calls. -/
def appendedTo (i : Nat) (block : NodeId) : Workspace → List Action → List NodeId
  | _, [] => []
  | w, a :: later =>
    appendedBy i block a (w.perform a).1 ++ appendedTo i block (w.perform a).2 later

/-- Calls that append nothing to a node add nothing to it. -/
theorem appendedBy_eq_nil {block : NodeId} (h : ¬ Extends i a o) :
    appendedBy i block a o = [] := by
  cases a with
  | append j parent child =>
      cases o with
      | done => exact if_neg fun hi => h hi.1
      | _ => rfl
  | _ => rfl

variable {tree tree' : Tree} {old : Node}

/-- A node persists through every call. -/
theorem Change.persists (h : Change i tree a o tree') (hold : tree.node id = .ok old) :
    ∃ new, tree'.node id = .ok new ∧ old.Persists (appendedBy i id a o) new := by
  cases h with
  | kept hid hnodes hnot =>
      refine ⟨old, ?_, ?_⟩
      · rwa [Tree.node, hid, hnodes]
      · rw [appendedBy_eq_nil hnot]
        exact Node.Persists.refl old
  | grown hpayload hgrown =>
      have hnode := hgrown.kept id (has_of_node hold).ne_nextId
      rw [hold] at hnode
      refine ⟨_, hnode, ?_⟩
      split
      · next hmem =>
        obtain ⟨node, hfree, hroot⟩ := hgrown.free id hmem
        rw [Except.ok.inj (hold.symm.trans hfree)]
        exact Node.persists_under hroot _
      · exact Node.Persists.refl old
  | @lengthened block child _ hlong =>
      have hnode := hlong.node_eq id
      rw [hold] at hnode
      refine ⟨_, hnode, ?_⟩
      split
      · next hblock =>
        subst hblock
        rw [appendedBy, if_pos ⟨rfl, rfl⟩]
        have hkind := hlong.block_kind (payload_eq_ok_iff.mpr ⟨old, hold, rfl⟩)
        exact Node.persists_extended hkind child
      · next hblock =>
        rw [appendedBy, if_neg fun h => hblock h.2.symm]
        split
        · next hchild =>
          obtain ⟨node, hfree, hroot⟩ := hlong.appendable.free
          rw [← hchild] at hfree
          rw [Except.ok.inj (hold.symm.trans hfree)]
          exact Node.persists_under hroot _
        · exact Node.Persists.refl old
  | commented hcommented =>
      have hnode := hcommented.node_eq id
      rw [hold] at hnode
      refine ⟨_, hnode, ?_⟩
      split
      · exact Node.persists_comment old _
      · exact Node.Persists.refl old

/-- A node persists through every run. -/
theorem persists_run_append (actions later : List Action)
    (hold : ((run actions).tree i).node id = .ok old) :
    ∃ new, ((run (actions ++ later)).tree i).node id = .ok new ∧
      old.Persists (appendedTo i id (run actions) later) new := by
  induction later generalizing actions old with
  | nil =>
      rw [List.append_nil]
      exact ⟨old, hold, Node.Persists.refl old⟩
  | cons a later ih =>
      obtain ⟨mid, hmid, hpersists⟩ := (change_run actions a i).persists hold
      obtain ⟨new, hnew, hlater⟩ := ih (actions ++ [a]) hmid
      rw [List.append_assoc, List.singleton_append] at hnew
      rw [run_concat] at hlater
      exact ⟨new, hnew, hpersists.trans hlater⟩

/-- No later call removes a node. -/
theorem has_run_append (actions later : List Action) (h : ((run actions).tree i).Has id) :
    ((run (actions ++ later)).tree i).Has id := by
  obtain ⟨old, hold⟩ := has_iff.mp h
  obtain ⟨new, hnew, -⟩ := persists_run_append actions later hold
  exact has_of_node hnew

/-- The payload of an expression stays the same. -/
theorem payload_run_append (actions later : List Action) {p : Payload NodeId} {type : DataType}
    (hp : ((run actions).tree i).payload id = .ok p) (htype : p.valueType? = some type) :
    ((run (actions ++ later)).tree i).payload id = .ok p := by
  obtain ⟨old, hold, rfl⟩ := payload_eq_ok_iff.mp hp
  obtain ⟨new, hnew, hpersists⟩ := persists_run_append actions later hold
  obtain ⟨-, hpayload⟩ := hpersists.payload_eq (kind_notMem_of_valueType? htype)
  exact payload_eq_ok_iff.mpr ⟨new, hnew, hpayload⟩

/-- The id that a constructor returns names a node of its tree. -/
theorem has_of_built {actions : List Action} {draft : Draft}
    (h : ((run actions).perform (.build i draft)).1 = .built id) :
    ((run (actions ++ [.build i draft])).tree i).Has id := by
  have hchange := change_run actions (.build i draft) i
  rw [h] at hchange
  cases hchange with
  | kept _ _ hnot => exact (hnot rfl).elim
  | grown _ hgrown => exact has_of_node hgrown.added

end Workspace

end TypedSyntax
