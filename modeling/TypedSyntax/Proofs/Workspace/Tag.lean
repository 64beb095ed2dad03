import TypedSyntax.Proofs.Workspace.Run

/-!
# Instance tags

All nodes of all trees of a workspace have different tags, and a node never
loses its tag.
-/

namespace TypedSyntax

namespace Tree

variable {tree tree' : Tree}

/-- The id names a node with the tag. -/
def TagAt (tree : Tree) (n : NodeId) (tag : Nat) : Prop :=
  ∃ node, tree.node n = .ok node ∧ node.tag = tag

/-- A change of nodes that keeps tags. -/
theorem tagAt_of_map {n : NodeId} {change : Node → Node}
    (htag : ∀ node, (change node).tag = node.tag)
    (hnode : tree'.node n = (tree.node n).map change) (tag : Nat) :
    tree'.TagAt n tag ↔ tree.TagAt n tag := by
  unfold TagAt
  rw [hnode]
  cases tree.node n with
  | error e => rfl
  | ok node =>
      constructor
      · rintro ⟨node', hnode', ht⟩
        cases hnode'
        exact ⟨node, rfl, (htag node).symm.trans ht⟩
      · rintro ⟨node', hnode', ht⟩
        cases hnode'
        exact ⟨change node, rfl, (htag node).trans ht⟩

theorem Lengthened.tagAt_iff {block child : NodeId} (h : tree.Lengthened tree' block child)
    (n : NodeId) (tag : Nat) : tree'.TagAt n tag ↔ tree.TagAt n tag := by
  apply tagAt_of_map _ (h.node_eq n)
  intro node
  split
  · rfl
  · split <;> rfl

theorem Commented.tagAt_iff {id : NodeId} {comment : String} (h : tree.Commented tree' id comment)
    (n : NodeId) (tag : Nat) : tree'.TagAt n tag ↔ tree.TagAt n tag := by
  apply tagAt_of_map _ (h.node_eq n)
  intro node
  split <;> rfl

/-- Only the new node has a new tag. -/
theorem Grown.tagAt_iff {node : Node} (h : tree.Grown tree' node) (n : NodeId) (tag : Nat) :
    tree'.TagAt n tag ↔ (n = tree.nextId ∧ tag = node.tag) ∨ tree.TagAt n tag := by
  by_cases hn : n = tree.nextId
  · subst hn
    constructor
    · rintro ⟨node', hnode', rfl⟩
      exact Or.inl ⟨rfl, congrArg Node.tag (Except.ok.inj (hnode'.symm.trans h.added))⟩
    · rintro (⟨-, rfl⟩ | ⟨node', hnode', -⟩)
      · exact ⟨node, h.added, rfl⟩
      · exact (not_has_nextId (has_of_node hnode')).elim
  · rw [or_iff_right fun hnew => hn hnew.1]
    apply tagAt_of_map _ (h.kept n hn)
    intro node'
    split <;> rfl

end Tree

namespace Workspace

variable {w after : Workspace} {id : Nat} {tree : Tree}

/-- How a call changes tags: all nodes keep theirs, and at most one node is
new, which has the next tag. -/
inductive Tagging (w after : Workspace) : Prop
  | kept : w.nextTag ≤ after.nextTag →
      (∀ i n tag, (after.tree i).TagAt n tag ↔ (w.tree i).TagAt n tag) → Tagging w after
  | added (j : Nat) (m : NodeId) : after.nextTag = w.nextTag + 1 →
      (∀ i n tag, (after.tree i).TagAt n tag ↔
        (i = j ∧ n = m ∧ tag = w.nextTag) ∨ (w.tree i).TagAt n tag) → Tagging w after

theorem tagging_withTree (h : ∀ n tag, tree.TagAt n tag ↔ (w.tree id).TagAt n tag) :
    Tagging w (w.withTree id tree) := by
  refine Tagging.kept (Nat.le_refl w.nextTag) ?_
  intro i n tag
  by_cases hid : id < w.trees.size
  · rw [tree_withTree hid]
    by_cases hi : i = id
    · rw [if_pos hi, hi]
      exact h n tag
    · rw [if_neg hi]
  · rw [show w.withTree id tree = w by simp [withTree, Array.setIfInBounds, hid]]

theorem Effect.tagging {a : Action} {o : Outcome} (h : Effect w a o after) : Tagging w after := by
  have quiet : ∀ {w'}, w'.trees = w.trees → w.nextTag ≤ w'.nextTag → Tagging w w' := by
    intro w' htrees hnext
    apply Tagging.kept hnext
    intro i n tag
    rw [Workspace.tree, htrees]
    rfl
  cases h with
  | unknown | unappended | uncommented => exact quiet rfl (Nat.le_refl _)
  | opened =>
      refine Tagging.kept (Nat.le_refl w.nextTag) ?_
      intro i n tag
      rw [tree_push_empty]
  | unbuilt => exact tagging_withTree fun _ _ => Iff.rfl
  | located => exact tagging_withTree fun _ _ => Iff.rfl
  | appended hlong => exact tagging_withTree hlong.tagAt_iff
  | commented hcomment => exact tagging_withTree hcomment.tagAt_iff
  | @built id draft payload tree' hpayload hgrown =>
      by_cases hid : id < w.trees.size
      · apply Tagging.added id (w.tree id).nextId rfl
        intro i n tag
        change ((w.withTree id tree').tree i).TagAt n tag ↔ _
        rw [tree_withTree hid]
        by_cases hi : i = id
        · subst hi
          rw [if_pos rfl, hgrown.tagAt_iff]
          simp [Tree.newNode]
        · rw [if_neg hi]
          simp [hi]
      · exact quiet (by simp [withTree, Array.setIfInBounds, hid]) (Nat.le_succ _)

/-- All nodes of all trees have different tags, and the next tag is new. -/
structure Tagged (w : Workspace) : Prop where
  fresh : ∀ {i n tag}, (w.tree i).TagAt n tag → tag < w.nextTag
  unique : ∀ {i j n m tag}, (w.tree i).TagAt n tag → (w.tree j).TagAt m tag → i = j ∧ n = m

theorem Tagged.tagging (hw : Tagged w) (h : Tagging w after) : Tagged after := by
  cases h with
  | kept hnext htag =>
      constructor
      · intro i n tag ht
        exact Nat.lt_of_lt_of_le (hw.fresh ((htag i n tag).mp ht)) hnext
      · intro i j n m tag ht ht'
        exact hw.unique ((htag i n tag).mp ht) ((htag j m tag).mp ht')
  | added k l hnext htag =>
      constructor
      · intro i n tag ht
        rw [hnext]
        rcases (htag i n tag).mp ht with ⟨-, -, rfl⟩ | hold
        · exact Nat.lt_succ_self _
        · exact Nat.lt_succ_of_lt (hw.fresh hold)
      · intro i j n m tag ht ht'
        rcases (htag i n tag).mp ht with ⟨rfl, rfl, rfl⟩ | hold <;>
          rcases (htag j m _).mp ht' with ⟨rfl, rfl, hnew⟩ | hold'
        · exact ⟨rfl, rfl⟩
        · exact (Nat.lt_irrefl _ (hw.fresh hold')).elim
        · exact (Nat.lt_irrefl _ (hnew ▸ hw.fresh hold)).elim
        · exact hw.unique hold hold'

theorem tagged_run (actions : List Action) : Tagged (run actions) := by
  induction actions using List.reverseRecOn with
  | nil =>
      have hnone : ∀ {i n tag}, ¬ ((run []).tree i).TagAt n tag := by
        rintro i n tag ⟨node, hnode, -⟩
        have hhas := (Tree.has_of_node hnode).2
        simp [run, empty, Workspace.tree, Tree.size, Tree.empty] at hhas
      exact ⟨fun h => (hnone h).elim, fun h => (hnone h).elim⟩
  | append_singleton actions a ih =>
      rw [run_concat]
      exact ih.tagging (effect_perform (numbered_run actions) a).tagging

/-- A node keeps its tag through further calls. -/
theorem tagAt_run_append (actions later : List Action) {i : Nat} {n : NodeId} {tag : Nat}
    (h : ((run actions).tree i).TagAt n tag) :
    ((run (actions ++ later)).tree i).TagAt n tag := by
  induction later using List.reverseRecOn with
  | nil => rwa [List.append_nil]
  | append_singleton later a ih =>
      rw [← List.append_assoc, run_concat]
      cases (effect_perform (numbered_run (actions ++ later)) a).tagging with
      | kept _ htag => exact (htag i n tag).mpr ih
      | added j m _ htag => exact (htag i n tag).mpr (Or.inr ih)

end Workspace

end TypedSyntax
