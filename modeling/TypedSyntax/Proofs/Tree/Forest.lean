import Mathlib.Data.List.Chain
import Mathlib.Data.List.Nodup
import Mathlib.Data.List.Perm.Subperm
import Mathlib.Logic.Relation
import TypedSyntax.Proofs.Workspace.Run

/-!
# Trees are forests

Child slots and parent links tell the same story. `Linked` is the invariant
that every change keeps; from it follows that no node stands in two slots and
that every climb along parents ends below the number of nodes.
-/

namespace TypedSyntax

theorem Payload.children_addStatement {α : Type} {p : Payload α} (c : α)
    (h : p.kind = .block ∨ p.kind = .module) :
    (p.addStatement c).children = p.children ++ [c] := by
  cases p <;> simp [kind] at h <;> rfl

namespace Tree

open Relation

variable {tree tree' : Tree} {node : Node} {block child : NodeId}

/-- The second node is the parent of the first. -/
def ChildOf (tree : Tree) (c p : NodeId) : Prop :=
  tree.parent c = .ok (some p)

/-- The child slots of a node. -/
def Slots (tree : Tree) (p : NodeId) (cs : List NodeId) : Prop :=
  tree.children p = .ok cs

theorem childOf_iff {c p : NodeId} :
    tree.ChildOf c p ↔ ∃ n, tree.node c = .ok n ∧ n.parent = some p :=
  map_eq_ok_iff

theorem slots_iff {p : NodeId} {cs : List NodeId} :
    tree.Slots p cs ↔ ∃ n, tree.node p = .ok n ∧ n.payload.children = cs :=
  map_eq_ok_iff

theorem ChildOf.has {c p : NodeId} (h : tree.ChildOf c p) : tree.Has c := by
  obtain ⟨n, hn, -⟩ := childOf_iff.mp h
  exact has_of_node hn

theorem has_below {n c : NodeId} (hn : tree.Has n) (h : ReflTransGen tree.ChildOf c n) :
    tree.Has c := by
  rcases ReflTransGen.cases_head h with rfl | ⟨p, hp, -⟩
  · exact hn
  · exact hp.has

theorem Slots.has {p : NodeId} {cs : List NodeId} (h : tree.Slots p cs) : tree.Has p := by
  obtain ⟨n, hn, -⟩ := slots_iff.mp h
  exact has_of_node hn

/-- A free node has no parent. -/
theorem Free.not_childOf {c : NodeId} (h : tree.Free c) (p : NodeId) : ¬ tree.ChildOf c p := by
  obtain ⟨n, hn, hparent⟩ := h
  rw [childOf_iff]
  rintro ⟨n', hn', hp⟩
  rw [Except.ok.inj (hn'.symm.trans hn), hparent] at hp
  cases hp

/-- The invariant of child slots and parent links. -/
structure Linked (tree : Tree) : Prop where
  present : ∀ {p cs}, tree.Slots p cs → ∀ c ∈ cs, tree.Has c
  nodup : ∀ {p cs}, tree.Slots p cs → cs.Nodup
  childOf_iff_slot : ∀ {c p}, tree.ChildOf c p ↔ ∃ cs, tree.Slots p cs ∧ c ∈ cs
  acyclic : ∀ id, ¬ TransGen tree.ChildOf id id

/-! ## What changes do to slots and links -/

theorem Grown.has_iff (h : tree.Grown tree' node) {id : NodeId} :
    tree'.Has id ↔ id = tree.nextId ∨ tree.Has id := by
  obtain ⟨t, i⟩ := id
  simp only [Has, h.id_eq, h.size_eq, nextId, NodeId.mk.injEq]
  omega

/-- The slots of a new node are those of its payload, and no others change. -/
theorem Grown.slots_iff (h : tree.Grown tree' node) {p : NodeId} {cs : List NodeId} :
    tree'.Slots p cs ↔ (p = tree.nextId ∧ cs = node.payload.children) ∨ tree.Slots p cs := by
  by_cases hp : p = tree.nextId
  · subst hp
    constructor
    · intro hs
      obtain ⟨n, hn, rfl⟩ := Tree.slots_iff.mp hs
      rw [Except.ok.inj (hn.symm.trans h.added)]
      exact Or.inl ⟨rfl, rfl⟩
    · rintro (⟨-, rfl⟩ | hs)
      · exact Tree.slots_iff.mpr ⟨node, h.added, rfl⟩
      · exact (not_has_nextId hs.has).elim
  · simp only [Slots, children, h.kept p hp, hp, false_and, false_or]
    cases tree.node p with
    | error e => rfl
    | ok n => by_cases hc : p ∈ node.payload.children <;> simp [Except.map, hc]

/-- The children of a new node were free before. -/
theorem Grown.childOf_iff (h : tree.Grown tree' node) (hroot : node.parent = none)
    {c p : NodeId} :
    tree'.ChildOf c p ↔
      (c ∈ node.payload.children ∧ p = tree.nextId) ∨ tree.ChildOf c p := by
  by_cases hc : c = tree.nextId
  · subst hc
    constructor
    · intro hs
      obtain ⟨n, hn, hparent⟩ := Tree.childOf_iff.mp hs
      rw [Except.ok.inj (hn.symm.trans h.added), hroot] at hparent
      cases hparent
    · rintro (⟨hm, -⟩ | hs)
      · exact (not_has_nextId (h.free _ hm).has).elim
      · exact (not_has_nextId hs.has).elim
  · by_cases hmem : c ∈ node.payload.children
    · obtain ⟨n, hn, hparent⟩ := h.free c hmem
      have hold := (h.free c hmem).not_childOf p
      simp only [hmem, true_and, hold, or_false]
      simp [ChildOf, parent, h.kept c hc, hn, Except.map, hmem, eq_comm]
    · simp only [hmem, false_and, false_or]
      simp only [ChildOf, parent, h.kept c hc, hmem, if_false]
      cases tree.node c <;> rfl

theorem Lengthened.has_iff (h : tree.Lengthened tree' block child) {id : NodeId} :
    tree'.Has id ↔ tree.Has id := by
  simp only [Has, h.id_eq, h.size_eq]

theorem Lengthened.exists_slots (h : tree.Lengthened tree' block child) :
    ∃ old, tree.Slots block old := by
  rcases h.appendable.container with hk | hk <;>
    · obtain ⟨n, hn, -⟩ := map_eq_ok_iff.mp hk
      exact ⟨_, Tree.slots_iff.mpr ⟨n, hn, rfl⟩⟩

/-- The block has one slot more, and no others change. -/
theorem Lengthened.slots_iff (h : tree.Lengthened tree' block child) {p : NodeId}
    {cs : List NodeId} :
    tree'.Slots p cs ↔ (p ≠ block ∧ tree.Slots p cs) ∨
      p = block ∧ ∃ old, tree.Slots block old ∧ cs = old ++ [child] := by
  by_cases hp : p = block
  · subst hp
    have hkind : ∃ n, tree.node p = .ok n ∧ (n.kind = .block ∨ n.kind = .module) := by
      rcases h.appendable.container with hk | hk <;>
        · obtain ⟨n, hn, he⟩ := map_eq_ok_iff.mp hk
          exact ⟨n, hn, by simp [he]⟩
    obtain ⟨n, hn, hkind⟩ := hkind
    have hadd := Payload.children_addStatement child hkind
    simp [Slots, children, h.node_eq p, hn, Except.map, hadd, eq_comm]
  · simp only [Slots, children, h.node_eq p, hp, if_false, ne_eq, not_false_eq_true, true_and,
      false_and, or_false]
    cases tree.node p with
    | error e => rfl
    | ok n => by_cases hc : p = child <;> simp [Except.map, hc]

/-- The child has a parent now, and no others change. -/
theorem Lengthened.childOf_iff (h : tree.Lengthened tree' block child) {c p : NodeId} :
    tree'.ChildOf c p ↔ (c = child ∧ p = block) ∨ tree.ChildOf c p := by
  by_cases hc : c = child
  · subst hc
    obtain ⟨n, hn, hparent⟩ := h.appendable.free
    have hold := h.appendable.free.not_childOf p
    simp only [true_and, hold, or_false]
    simp [ChildOf, parent, h.node_eq c, hn, Except.map, h.appendable.ne, eq_comm]
  · simp only [hc, false_and, false_or]
    simp only [ChildOf, parent, h.node_eq c, hc, if_false]
    cases tree.node c with
    | error e => rfl
    | ok n => by_cases hb : c = block <;> simp [Except.map, hb]

theorem Commented.slots_iff {id : NodeId} {comment : String}
    (h : tree.Commented tree' id comment) {p : NodeId} {cs : List NodeId} :
    tree'.Slots p cs ↔ tree.Slots p cs := by
  simp only [Slots, children, h.node_eq p]
  cases tree.node p with
  | error e => rfl
  | ok n => by_cases hp : p = id <;> simp [Except.map, hp]

theorem Commented.childOf_iff {id : NodeId} {comment : String}
    (h : tree.Commented tree' id comment) {c p : NodeId} :
    tree'.ChildOf c p ↔ tree.ChildOf c p := by
  simp only [ChildOf, parent, h.node_eq c]
  cases tree.node c with
  | error e => rfl
  | ok n => by_cases hc : c = id <;> simp [Except.map, hc]

/-! ## The invariant is kept -/

theorem linked_empty (i : Nat) : Linked (empty i) := by
  have hnone : ∀ id, ¬ (empty i).Has id := fun id h => Nat.not_lt_zero _ h.2
  exact {
    present := fun hs => (hnone _ hs.has).elim
    nodup := fun hs => (hnone _ hs.has).elim
    childOf_iff_slot := ⟨fun h => (hnone _ h.has).elim, fun ⟨_, hs, _⟩ => (hnone _ hs.has).elim⟩
    acyclic := by
      intro id h
      obtain ⟨b, hb, -⟩ := TransGen.head'_iff.mp h
      exact hnone _ hb.has }

theorem Linked.quiet (ht : Linked tree) (hid : tree'.id = tree.id)
    (hnodes : tree'.nodes = tree.nodes) : Linked tree' := by
  obtain ⟨i, nodes, pending⟩ := tree
  obtain ⟨i', nodes', pending'⟩ := tree'
  subst hid hnodes
  exact ⟨ht.present, ht.nodup, ht.childOf_iff_slot, ht.acyclic⟩

/-- A path of a relation that gains edges into a dead end either ends there or
is a path of the old relation. -/
private theorem transGen_of_dead_end {α : Type} {r r' : α → α → Prop} {dead : α}
    (hr : ∀ x y, r' x y → y = dead ∨ r x y) (hdead : ∀ y, ¬ r' dead y) {a b : α}
    (h : TransGen r' a b) : b = dead ∨ TransGen r a b := by
  induction h with
  | single hab => exact (hr _ _ hab).imp_right TransGen.single
  | @tail b c _ hbc ih =>
      refine (hr _ _ hbc).imp_right fun hnew => ?_
      rcases ih with rfl | hold
      · exact (hdead _ hbc).elim
      · exact hold.tail hnew

/-- A path of a relation that gains one edge either uses it or is a path of
the old relation. -/
private theorem transGen_of_new_edge {α : Type} {r r' : α → α → Prop} {u v : α}
    (hr : ∀ x y, r' x y → (x = u ∧ y = v) ∨ r x y) {a b : α} (h : TransGen r' a b) :
    TransGen r a b ∨ ReflTransGen r a u ∧ ReflTransGen r v b := by
  induction h with
  | single hab =>
      rcases hr _ _ hab with ⟨rfl, rfl⟩ | hold
      · exact Or.inr ⟨ReflTransGen.refl, ReflTransGen.refl⟩
      · exact Or.inl (TransGen.single hold)
  | @tail b c _ hbc ih =>
      rcases hr _ _ hbc with ⟨rfl, rfl⟩ | hold
      · rcases ih with hab | ⟨hau, -⟩
        · exact Or.inr ⟨hab.to_reflTransGen, ReflTransGen.refl⟩
        · exact Or.inr ⟨hau, ReflTransGen.refl⟩
      · rcases ih with hab | ⟨hau, hvb⟩
        · exact Or.inl (hab.tail hold)
        · exact Or.inr ⟨hau, hvb.tail hold⟩

/-- A new node is linked to its children. -/
theorem Linked.grown (ht : Linked tree) (h : tree.Grown tree' node)
    (hroot : node.parent = none) : Linked tree' where
  present := by
    intro p cs hs c hc
    rcases h.slots_iff.mp hs with ⟨rfl, rfl⟩ | hold
    · exact h.has_iff.mpr (Or.inr (h.free c hc).has)
    · exact h.has_iff.mpr (Or.inr (ht.present hold c hc))
  nodup := by
    intro p cs hs
    rcases h.slots_iff.mp hs with ⟨rfl, rfl⟩ | hold
    · exact h.nodup
    · exact ht.nodup hold
  childOf_iff_slot := by
    intro c p
    rw [h.childOf_iff hroot, ht.childOf_iff_slot]
    constructor
    · rintro (⟨hc, rfl⟩ | ⟨cs, hs, hc⟩)
      · exact ⟨_, h.slots_iff.mpr (Or.inl ⟨rfl, rfl⟩), hc⟩
      · exact ⟨cs, h.slots_iff.mpr (Or.inr hs), hc⟩
    · rintro ⟨cs, hs, hc⟩
      rcases h.slots_iff.mp hs with ⟨rfl, rfl⟩ | hold
      · exact Or.inl ⟨hc, rfl⟩
      · exact Or.inr ⟨cs, hold, hc⟩
  acyclic := by
    intro id hcycle
    -- The new node has no parent, so no path leads through it.
    have hdead : ∀ y, ¬ tree'.ChildOf tree.nextId y := by
      intro y hy
      rcases (h.childOf_iff hroot).mp hy with ⟨hc, -⟩ | hold
      · exact not_has_nextId (h.free _ hc).has
      · exact not_has_nextId hold.has
    have hedge : ∀ x y, tree'.ChildOf x y → y = tree.nextId ∨ tree.ChildOf x y :=
      fun _ _ hxy => ((h.childOf_iff hroot).mp hxy).imp_left And.right
    rcases transGen_of_dead_end hedge hdead hcycle with rfl | hold
    · obtain ⟨b, hb, -⟩ := TransGen.head'_iff.mp hcycle
      exact hdead b hb
    · exact ht.acyclic id hold

/-- A comment changes no link. -/
theorem Linked.commented (ht : Linked tree) {id : NodeId} {comment : String}
    (h : tree.Commented tree' id comment) : Linked tree' where
  present := by
    intro p cs hs c hc
    have hold := ht.present (h.slots_iff.mp hs) c hc
    exact ⟨hold.1.trans h.id_eq.symm, h.size_eq.symm ▸ hold.2⟩
  nodup := fun hs => ht.nodup (h.slots_iff.mp hs)
  childOf_iff_slot := by
    intro c p
    simp only [h.childOf_iff, h.slots_iff, ht.childOf_iff_slot]
  acyclic := by
    intro a hcycle
    exact ht.acyclic a (TransGen.mono (fun _ _ hxy => h.childOf_iff.mp hxy) _ _ hcycle)

/-! ## Ancestors -/

/-- Following parents from a node on until there is none, without a bound on
the number of steps. -/
inductive Climb (tree : Tree) : Option NodeId → List NodeId → Prop
  | stop : Climb tree none []
  | up {id path} : Climb tree (tree.parent id).toOption.join path →
      Climb tree (some id) (id :: path)

theorem join_parent_eq_some_iff {c p : NodeId} :
    (tree.parent c).toOption.join = some p ↔ tree.ChildOf c p := by
  unfold ChildOf
  cases tree.parent c <;> simp [Except.toOption]

theorem ancestors_of_not_has {c : NodeId} (h : ¬ tree.Has c) :
    (tree.parent c).toOption.join = none ∧ tree.ancestors c = [] := by
  have hjoin : (tree.parent c).toOption.join = none := by
    rw [Option.eq_none_iff_forall_ne_some]
    exact fun p hp => h (join_parent_eq_some_iff.mp hp).has
  rw [ancestors, hjoin]
  exact ⟨rfl, by cases tree.size <;> rfl⟩

/-- A chain that ends before its bound is a whole climb. -/
theorem climb_parentChain {fuel : Nat} {start : Option NodeId}
    (h : (tree.parentChain fuel start).length < fuel) :
    tree.Climb start (tree.parentChain fuel start) := by
  induction fuel generalizing start with
  | zero => simp at h
  | succ fuel ih =>
      cases start with
      | none => exact Climb.stop
      | some id => exact Climb.up (ih (Nat.lt_of_succ_lt_succ h))

/-- Each step of the chain of parents goes up one level. -/
theorem isChain_parentChain (fuel : Nat) (c : NodeId) :
    List.IsChain tree.ChildOf (c :: tree.parentChain fuel (tree.parent c).toOption.join) := by
  induction fuel generalizing c with
  | zero => exact List.isChain_singleton c
  | succ fuel ih =>
      cases hup : (tree.parent c).toOption.join with
      | none => exact List.isChain_singleton c
      | some p => exact List.isChain_cons_cons.mpr ⟨join_parent_eq_some_iff.mp hup, ih p⟩

/-- Each ancestor is above all those before it. -/
theorem pairwise_ancestors (c : NodeId) :
    List.Pairwise (TransGen tree.ChildOf) (c :: tree.ancestors c) :=
  List.isChain_iff_pairwise.mp
    ((isChain_parentChain tree.size c).imp fun _ _ h => TransGen.single h)

theorem transGen_of_mem_ancestors {a c : NodeId} (h : a ∈ tree.ancestors c) :
    TransGen tree.ChildOf c a :=
  (List.pairwise_cons.mp (pairwise_ancestors c)).1 a h

theorem Linked.has_parent (ht : Linked tree) {c p : NodeId} (h : tree.ChildOf c p) :
    tree.Has p := by
  obtain ⟨cs, hs, -⟩ := ht.childOf_iff_slot.mp h
  exact hs.has

/-- Everything above a node is in the tree. -/
theorem Linked.has_above (ht : Linked tree) {a c : NodeId} (h : TransGen tree.ChildOf c a) :
    tree.Has a := by
  obtain ⟨b, -, hb⟩ := TransGen.tail'_iff.mp h
  exact ht.has_parent hb

theorem Linked.has_of_below (ht : Linked tree) {a c : NodeId} (hc : tree.Has c)
    (h : ReflTransGen tree.ChildOf c a) : tree.Has a := by
  rcases ReflTransGen.cases_tail h with rfl | ⟨b, -, hb⟩
  · exact hc
  · exact ht.has_parent hb

/-- Different nodes of a tree are not more than its nodes. -/
theorem length_le_size {ids : List NodeId} (hnodup : ids.Nodup) (hhas : ∀ a ∈ ids, tree.Has a) :
    ids.length ≤ tree.size := by
  have hindices : (ids.map (·.index)).Nodup :=
    hnodup.map_on fun a ha b hb he => ((hhas a ha).eq_iff_index (hhas b hb)).mpr he
  have hsub : ids.map (·.index) ⊆ List.range tree.size := by
    intro i hi
    obtain ⟨a, ha, rfl⟩ := List.mem_map.mp hi
    exact List.mem_range.mpr (hhas a ha).2
  simpa using (List.subperm_of_subset hindices hsub).length_le

/-- Ancestors are distinct nodes of the tree, so they are fewer. -/
theorem Linked.length_ancestors_lt (ht : Linked tree) {c : NodeId} (hc : tree.Has c) :
    (tree.ancestors c).length < tree.size := by
  have hnodup : (c :: tree.ancestors c).Nodup :=
    List.Pairwise.imp (fun {a b} (h : TransGen tree.ChildOf a b) (he : a = b) =>
      ht.acyclic b (he ▸ h)) (pairwise_ancestors c)
  have hhas : ∀ a ∈ c :: tree.ancestors c, tree.Has a := by
    intro a ha
    rcases List.mem_cons.mp ha with rfl | ha
    · exact hc
    · exact ht.has_above (transGen_of_mem_ancestors ha)
  exact length_le_size hnodup hhas

/-- Following parents without a bound gives the ancestors. -/
theorem Linked.climb_ancestors (ht : Linked tree) (c : NodeId) :
    tree.Climb (tree.parent c).toOption.join (tree.ancestors c) := by
  by_cases hc : tree.Has c
  · exact climb_parentChain (ht.length_ancestors_lt hc)
  · obtain ⟨hjoin, hnil⟩ := ancestors_of_not_has hc
    rw [hjoin, hnil]
    exact Climb.stop

/-- A climb meets every node above its start. -/
theorem Climb.mem_of_transGen {start : Option NodeId} {path : List NodeId}
    (h : tree.Climb start path) {a c : NodeId} (hstart : start = (tree.parent c).toOption.join)
    (hca : TransGen tree.ChildOf c a) : a ∈ path := by
  induction h generalizing c with
  | stop =>
      obtain ⟨b, hcb, -⟩ := TransGen.head'_iff.mp hca
      rw [join_parent_eq_some_iff.mpr hcb] at hstart
      cases hstart
  | @up id path _ ih =>
      obtain ⟨b, hcb, hba⟩ := TransGen.head'_iff.mp hca
      rw [join_parent_eq_some_iff.mpr hcb] at hstart
      obtain rfl := Option.some.inj hstart
      rcases reflTransGen_iff_eq_or_transGen.mp hba with rfl | hba
      · exact List.mem_cons_self
      · exact List.mem_cons_of_mem _ (ih rfl hba)

/-- The ancestors are all nodes above. -/
theorem Linked.mem_ancestors_iff (ht : Linked tree) {a c : NodeId} :
    a ∈ tree.ancestors c ↔ TransGen tree.ChildOf c a :=
  ⟨transGen_of_mem_ancestors, (ht.climb_ancestors c).mem_of_transGen rfl⟩

/-- A free child that is not above its block is linked to it. -/
theorem Linked.lengthened (ht : Linked tree) (h : tree.Lengthened tree' block child) :
    Linked tree' where
  present := by
    intro p cs hs c hc
    rw [h.has_iff]
    rcases h.slots_iff.mp hs with ⟨-, hold⟩ | ⟨rfl, old, hold, rfl⟩
    · exact ht.present hold c hc
    · rcases List.mem_append.mp hc with hc | hc
      · exact ht.present hold c hc
      · exact List.mem_singleton.mp hc ▸ h.appendable.free.has
  nodup := by
    intro p cs hs
    rcases h.slots_iff.mp hs with ⟨-, hold⟩ | ⟨rfl, old, hold, rfl⟩
    · exact ht.nodup hold
    · have hnew : child ∉ old := fun hm =>
        h.appendable.free.not_childOf p (ht.childOf_iff_slot.mpr ⟨old, hold, hm⟩)
      exact List.Nodup.append (ht.nodup hold) (List.nodup_singleton child)
        (List.disjoint_singleton.mpr hnew)
  childOf_iff_slot := by
    intro c p
    rw [h.childOf_iff, ht.childOf_iff_slot]
    constructor
    · rintro (⟨rfl, rfl⟩ | ⟨cs, hs, hc⟩)
      · obtain ⟨old, hold⟩ := h.exists_slots
        exact ⟨_, h.slots_iff.mpr (Or.inr ⟨rfl, old, hold, rfl⟩), by simp⟩
      · by_cases hp : p = block
        · subst hp
          exact ⟨_, h.slots_iff.mpr (Or.inr ⟨rfl, cs, hs, rfl⟩), List.mem_append_left _ hc⟩
        · exact ⟨cs, h.slots_iff.mpr (Or.inl ⟨hp, hs⟩), hc⟩
    · rintro ⟨cs, hs, hc⟩
      rcases h.slots_iff.mp hs with ⟨-, hold⟩ | ⟨rfl, old, hold, rfl⟩
      · exact Or.inr ⟨cs, hold, hc⟩
      · rcases List.mem_append.mp hc with hc | hc
        · exact Or.inr ⟨old, hold, hc⟩
        · exact Or.inl ⟨List.mem_singleton.mp hc, rfl⟩
  acyclic := by
    intro id hcycle
    have hedge : ∀ x y, tree'.ChildOf x y → (x = child ∧ y = block) ∨ tree.ChildOf x y :=
      fun _ _ hxy => h.childOf_iff.mp hxy
    rcases transGen_of_new_edge hedge hcycle with hold | ⟨hup, hdown⟩
    · exact ht.acyclic id hold
    · -- A cycle through the new edge would put the child at or above the block.
      rcases reflTransGen_iff_eq_or_transGen.mp (hdown.trans hup) with he | habove
      · exact h.appendable.ne he
      · exact h.appendable.notAbove (ht.mem_ancestors_iff.mpr habove)

/-! ## Every run -/

/-- Slots and parent links agree in every tree of every run. -/
theorem linked_run (actions : List Workspace.Action) (i : Nat) :
    Linked ((Workspace.run actions).tree i) :=
  Workspace.forall_tree_run (P := Linked) linked_empty
    (fun hid hnodes ht => ht.quiet hid hnodes)
    (fun _ hgrown ht => ht.grown hgrown rfl)
    (fun hlong ht => ht.lengthened hlong)
    (fun hcomment ht => ht.commented hcomment) actions i

theorem slots_of_getElem {i : Nat} (hi : i < tree.nodes.size) :
    tree.Slots ⟨tree.id, i⟩ tree.nodes[i].payload.children :=
  slots_iff.mpr ⟨_, node_eq_ok_iff.mpr ⟨rfl, by simp [hi]⟩, rfl⟩

/-- All slots of all nodes hold different nodes. -/
theorem Linked.nodup_all (ht : Linked tree) :
    (tree.nodes.toList.flatMap (·.payload.children)).Nodup := by
  rw [List.nodup_flatMap]
  constructor
  · intro n hn
    obtain ⟨i, hi, rfl⟩ := List.mem_iff_getElem.mp hn
    exact ht.nodup (slots_of_getElem (by simpa using hi))
  · rw [List.pairwise_iff_getElem]
    intro i j hi hj hij c hci hcj
    -- A node in the slots of two nodes would have two parents.
    have hparent : ∀ (k : Nat) (hk : k < tree.nodes.toList.length),
        c ∈ (tree.nodes.toList[k]).payload.children → tree.ChildOf c ⟨tree.id, k⟩ :=
      fun k hk hc => ht.childOf_iff_slot.mpr ⟨_, slots_of_getElem (by simpa using hk), hc⟩
    have heq := Except.ok.inj ((hparent i hi hci).symm.trans (hparent j hj hcj))
    have hindex : i = j := by simpa using heq
    omega

/-- A tree whose child slots hold different nodes of the tree, agree with the
parent links and lead to no cycle. -/
structure Forest (tree : Tree) : Prop where
  present : ∀ p cs, tree.children p = .ok cs → ∀ c ∈ cs, tree.Has c
  once : (tree.nodes.toList.flatMap (·.payload.children)).Nodup
  parent_iff : ∀ c p, tree.parent c = .ok (some p) ↔
    ∃ cs, tree.children p = .ok cs ∧ c ∈ cs
  climb : ∀ n, tree.Climb (tree.parent n).toOption.join (tree.ancestors n)
  notAbove : ∀ n, n ∉ tree.ancestors n
  short : ∀ n, tree.Has n → (tree.ancestors n).length < tree.size

/-- Every tree is a forest after every run, whatever calls were refused. -/
theorem forest_run (actions : List Workspace.Action) (i : Nat) :
    Forest ((Workspace.run actions).tree i) := by
  have ht := linked_run actions i
  exact {
    present := fun _ _ => ht.present
    once := ht.nodup_all
    parent_iff := fun _ _ => ht.childOf_iff_slot
    climb := ht.climb_ancestors
    notAbove := fun n hn => ht.acyclic n (ht.mem_ancestors_iff.mp hn)
    short := fun _ => ht.length_ancestors_lt }

end Tree

end TypedSyntax
