import TypedSyntax.Proofs.Tree.Lookup

/-!
# Changes of a tree

When a node is built or appended, and what the tree is afterwards. A build is
`Grown` and an append is `Lengthened`: both say for every id what its node
becomes.
-/

namespace TypedSyntax.Tree

variable {tree tree' : Tree} {draft : Draft} {payload : Payload NodeId}

/-- A node that may become a child: it has no parent yet. -/
def Free (tree : Tree) (id : NodeId) : Prop :=
  ∃ node, tree.node id = .ok node ∧ node.parent = none

/-- What is free is there. -/
theorem Free.has {id : NodeId} (h : tree.Free id) : tree.Has id := by
  obtain ⟨node, hnode, -⟩ := h
  exact has_of_node hnode

theorem look_eq_ok_iff {α : Type} {x : Except NodeError α} {a : α} :
    look x = .ok a ↔ x = .ok a := by
  cases x <;> simp [look]

/-- A child may be taken if it is free and was not taken for an earlier slot. -/
theorem expectFree_eq_ok_iff {earlier : List NodeId} {child : NodeId} :
    tree.expectFree earlier child = .ok () ↔ tree.Free child ∧ child ∉ earlier := by
  simp only [expectFree, bind_eq_ok_iff, look_eq_ok_iff, Free]
  constructor
  · rintro ⟨node, hnode, hcheck⟩
    split at hcheck
    · cases hcheck
    · next hbad =>
      simp only [not_or, Option.not_isSome_iff_eq_none] at hbad
      exact ⟨⟨node, hnode, hbad.1⟩, hbad.2⟩
  · rintro ⟨⟨node, hnode, hparent⟩, hearlier⟩
    exact ⟨node, hnode, by simp [hparent, hearlier]⟩

/-- The children of a new node are free and differ from each other. -/
theorem expectAllFree_eq_ok_iff {earlier children : List NodeId} :
    tree.expectAllFree earlier children = .ok () ↔
      (∀ c ∈ children, tree.Free c) ∧ (∀ c ∈ children, c ∉ earlier) ∧ children.Nodup := by
  induction children generalizing earlier with
  | nil => simp [expectAllFree]
  | cons c cs ih =>
      simp only [expectAllFree, check_bind_eq_ok_iff, expectFree_eq_ok_iff, ih, List.mem_cons,
        not_or, List.nodup_cons, forall_eq_or_imp]
      constructor
      · rintro ⟨⟨hfree, hearlier⟩, hfrees, hothers, hnodup⟩
        exact ⟨⟨hfree, hfrees⟩, ⟨hearlier, fun a ha => (hothers a ha).2⟩,
          fun hc => (hothers c hc).1 rfl, hnodup⟩
      · rintro ⟨⟨hfree, hfrees⟩, ⟨hearlier, hothers⟩, hc, hnodup⟩
        refine ⟨⟨hfree, hearlier⟩, hfrees, fun a ha => ⟨?_, hothers a ha⟩, hnodup⟩
        rintro rfl
        exact hc ha

/-- A draft is admitted when its checks succeed and its children are free. -/
theorem admitted_eq_ok_iff :
    tree.admitted draft = .ok payload ↔
      tree.payload? draft = .ok payload ∧ (∀ c ∈ payload.children, tree.Free c) ∧
        payload.children.Nodup := by
  simp only [admitted, bind_eq_ok_iff (A := Payload NodeId), check_bind_eq_ok_iff,
    pure_eq_ok_iff, expectAllFree_eq_ok_iff, List.not_mem_nil, not_false_iff, implies_true,
    true_and]
  constructor
  · rintro ⟨p, hp, hfree, rfl⟩
    exact ⟨hp, hfree⟩
  · rintro ⟨hp, hfree⟩
    exact ⟨payload, hp, hfree, rfl⟩

/-- The second tree is the first with a new node at the end, whose children
had no parent. -/
structure Grown (tree tree' : Tree) (node : Node) : Prop where
  id_eq : tree'.id = tree.id
  size_eq : tree'.size = tree.size + 1
  pending_eq : tree'.pending = none
  free : ∀ c ∈ node.payload.children, tree.Free c
  nodup : node.payload.children.Nodup
  added : tree'.node tree.nextId = .ok node
  kept : ∀ id, id ≠ tree.nextId →
    tree'.node id = (tree.node id).map fun n =>
      if id ∈ node.payload.children then n.under tree.nextId else n

/-- The node that a tree builds from an admitted payload. -/
def newNode (tree : Tree) (tag : Nat) (payload : Payload NodeId) : Node :=
  ⟨tag, tree.nextLocation, none, "", payload⟩

/-- A refused draft clears the pending location only. -/
theorem build_of_refused {e : ConstructionError} (h : tree.admitted draft = .error e)
    (tag : Nat) : tree.build tag draft = (tree.clearPending, .error e) := by
  simp [build, h]

/-- An admitted draft becomes the next node. -/
theorem build_of_admitted (h : tree.admitted draft = .ok payload) (tag : Nat) :
    tree.build tag draft =
      (tree.clearPending.add (tree.newNode tag payload), .ok tree.nextId) := by
  simp [build, h, newNode]

/-- The tree grows by the admitted node. -/
theorem grown_of_admitted (h : tree.admitted draft = .ok payload) (tag : Nat) :
    Grown tree (tree.clearPending.add (tree.newNode tag payload)) (tree.newNode tag payload) := by
  obtain ⟨-, hfree, hnodup⟩ := admitted_eq_ok_iff.mp h
  have hhas : ∀ c ∈ (tree.newNode tag payload).payload.children, tree.clearPending.Has c :=
    fun c hc => (hfree c hc).has
  have hnext : tree.clearPending.nextId = tree.nextId := rfl
  exact {
    id_eq := id_add _
    size_eq := size_add _
    pending_eq := pending_add _
    free := hfree
    nodup := hnodup
    added := by rw [node_add hhas, hnext, if_pos rfl]
    kept := by
      intro id hid
      rw [node_add hhas, hnext, if_neg hid, node_clearPending] }

/-- When a node may be added to a block or module: it is a statement without
a parent, and neither the block itself nor above it. -/
structure Appendable (tree : Tree) (block child : NodeId) : Prop where
  container : tree.kind block = .ok .block ∨ tree.kind block = .ok .module
  statement : ∃ kind, tree.kind child = .ok kind ∧ isStatement kind = true
  free : tree.Free child
  ne : child ≠ block
  notAbove : child ∉ tree.ancestors block

/-- The second tree is the first with a free node added to a block or
module. -/
structure Lengthened (tree tree' : Tree) (block child : NodeId) : Prop where
  id_eq : tree'.id = tree.id
  size_eq : tree'.size = tree.size
  pending_eq : tree'.pending = tree.pending
  appendable : Appendable tree block child
  node_eq : ∀ id, tree'.node id = (tree.node id).map fun n =>
    if id = block then n.extended child else if id = child then n.under block else n

theorem expectStatementKind_eq_ok_iff {kind : Kind} :
    expectStatementKind kind = .ok () ↔ isStatement kind = true := by
  unfold expectStatementKind
  split <;> simp_all

/-- An append succeeds exactly when it is allowed. -/
theorem append_eq_ok_iff {block child : NodeId} :
    tree.append block child = .ok tree' ↔
      Appendable tree block child ∧
        tree' = attach (tree.modify block.index (·.extended child)) block [child] := by
  simp only [append, bind_eq_ok_iff, look_eq_ok_iff]
  constructor
  · rintro ⟨blockKind, hblock, hrest⟩
    split at hrest
    · cases hrest
    next hcontainer =>
    simp only [bind_eq_ok_iff (A := Node), check_bind_eq_ok_iff, look_eq_ok_iff,
      expectStatementKind_eq_ok_iff] at hrest
    obtain ⟨node, hnode, hstatement, hrest⟩ := hrest
    split at hrest
    · cases hrest
    next hparent =>
    split at hrest
    · cases hrest
    next habove =>
    rw [not_or] at habove
    refine ⟨⟨?_, ⟨node.kind, ?_, hstatement⟩, ⟨node, hnode, by simpa using hparent⟩,
      habove.1, habove.2⟩, (pure_eq_ok_iff.mp hrest).symm⟩
    · by_cases hb : blockKind = .block
      · exact Or.inl (hb ▸ hblock)
      · exact Or.inr ((of_not_not fun hm => hcontainer ⟨hb, hm⟩ : blockKind = .module) ▸ hblock)
    · simp [kind, hnode, Except.map]
  · rintro ⟨⟨hcontainer, ⟨kind, hkind, hstatement⟩, ⟨node, hnode, hparent⟩, hne, habove⟩, rfl⟩
    have hnodeKind : node.kind = kind := by
      simpa [Tree.kind, hnode, Except.map] using hkind
    have hallowed : ∃ k, tree.kind block = .ok k ∧ ¬ (k ≠ .block ∧ k ≠ .module) := by
      rcases hcontainer with h | h
      · exact ⟨_, h, by simp⟩
      · exact ⟨_, h, by simp⟩
    obtain ⟨blockKind, hblock, hcontainer⟩ := hallowed
    refine ⟨blockKind, hblock, ?_⟩
    rw [if_neg hcontainer]
    simp only [bind_eq_ok_iff (A := Node), check_bind_eq_ok_iff, look_eq_ok_iff,
      expectStatementKind_eq_ok_iff]
    refine ⟨node, hnode, hnodeKind ▸ hstatement, ?_⟩
    rw [if_neg (by simp [hparent]), if_neg (by simp [hne, habove])]
    rfl

/-- An append adds the child to its block and links it. -/
theorem lengthened_of_append {block child : NodeId} (h : tree.append block child = .ok tree') :
    Lengthened tree tree' block child := by
  obtain ⟨happ, rfl⟩ := append_eq_ok_iff.mp h
  have hchild : tree.Has child := happ.free.has
  have hblock : tree.Has block := by
    rcases happ.container with h | h <;>
      · obtain ⟨n, hn, -⟩ := map_eq_ok_iff.mp h
        exact has_of_node hn
  have hhas : ∀ c ∈ [child], (tree.modify block.index (·.extended child)).Has c := by
    intro c hc
    rw [List.mem_singleton.mp hc]
    exact ⟨hchild.1, (size_modify block.index _).symm ▸ hchild.2⟩
  exact {
    id_eq := id_attach _ _
    size_eq := (size_attach _ _).trans (size_modify _ _)
    pending_eq := pending_attach _ _
    appendable := happ
    node_eq := by
      intro id
      rw [node_attach hhas, node_modify]
      cases hnode : tree.node id with
      | error e => rfl
      | ok n =>
          have hid := has_of_node hnode
          by_cases hb : id = block
          · have hc : block ≠ child := happ.ne.symm
            simp [Except.map, hb, hc]
          · have hi : id.index ≠ block.index := fun hi => hb ((hid.eq_iff_index hblock).mpr hi)
            simp [Except.map, hb, hi] }

/-- The second tree is the first with another comment on one node. -/
structure Commented (tree tree' : Tree) (id : NodeId) (comment : String) : Prop where
  id_eq : tree'.id = tree.id
  size_eq : tree'.size = tree.size
  pending_eq : tree'.pending = tree.pending
  has : tree.Has id
  node_eq : ∀ other, tree'.node other = (tree.node other).map fun n =>
    if other = id then { n with comment } else n

theorem setComment_eq_error {id : NodeId} {comment : String} {e : NodeError}
    (h : tree.setComment id comment = .error e) : ¬ tree.Has id := by
  intro hid
  obtain ⟨node, hnode⟩ := has_iff.mp hid
  simp [setComment, hnode, bind, Except.bind, pure, Except.pure] at h

/-- A comment that is set changes the comment of its node only. -/
theorem commented_of_setComment {id : NodeId} {comment : String}
    (h : tree.setComment id comment = .ok tree') : Commented tree tree' id comment := by
  simp only [setComment, bind_eq_ok_iff, pure_eq_ok_iff] at h
  obtain ⟨node, hnode, rfl⟩ := h
  exact {
    id_eq := rfl
    size_eq := size_modify _ _
    pending_eq := rfl
    has := has_of_node hnode
    node_eq := by
      intro other
      rw [node_modify]
      cases hother : tree.node other with
      | error e => rfl
      | ok n => simp [Except.map, (has_of_node hother).eq_iff_index (has_of_node hnode)] }

end TypedSyntax.Tree
