import TypedSyntax.Proofs.Tree.Answers

/-!
# Walks down and up

The walk down from a node lists the node and then what its children list, and it
meets exactly those nodes whose climb leads to where it started. Every climb ends
at one root, so that the walks from the roots meet every node once.
-/

namespace TypedSyntax.Tree

open Relation

variable {tree : Tree} {id n r : NodeId} {ids : List NodeId}

/-- A node followed by the lists of its children, one after the other. -/
inductive Lists (tree : Tree) : NodeId → List NodeId → Prop
  | node {id cs} {below : NodeId → List NodeId} : tree.children id = .ok cs →
      (∀ c ∈ cs, Lists tree c (below c)) → Lists tree id (id :: cs.flatMap below)

/-- A node has one list. -/
theorem Lists.unique {other : List NodeId} (h : tree.Lists id ids) (h' : tree.Lists id other) :
    other = ids := by
  induction h generalizing other with
  | node hcs _ ih =>
      obtain ⟨hcs', hbelow⟩ := h'
      obtain rfl := Except.ok.inj (hcs'.symm.trans hcs)
      congr 1
      exact List.flatMap_congr fun c hc => ih c hc (hbelow c hc)

theorem Linked.lists (ht : Linked tree) (hid : tree.Has id) :
    tree.Lists id (tree.preorder id) := by
  refine ht.induction (P := fun id => tree.Lists id (tree.preorder id)) ?_ hid
  intro id hid ih
  obtain ⟨cs, hs⟩ := exists_slots hid
  rw [ht.preorder_eq hs]
  exact Lists.node hs fun c hc => ih c (ht.childOf_of_slot hs hc)

theorem Linked.self_mem_preorder (ht : Linked tree) (hid : tree.Has id) :
    id ∈ tree.preorder id := by
  obtain ⟨cs, hs⟩ := exists_slots hid
  rw [ht.preorder_eq hs]
  exact List.mem_cons_self

/-- The walk down meets exactly the nodes below its start. -/
theorem Linked.mem_preorder_iff (ht : Linked tree) (hr : tree.Has r) :
    n ∈ tree.preorder r ↔ ReflTransGen tree.ChildOf n r := by
  refine ⟨ht.below_of_mem_preorder hr n, fun hbelow => ?_⟩
  -- Upwards along the path: what a child lists, its parent lists as well.
  induction hbelow with
  | refl => exact ht.self_mem_preorder hr
  | @tail c p _ hcp ih =>
      obtain ⟨cs, hs, hc⟩ := ht.childOf_iff_slot.mp hcp
      rw [ht.preorder_eq hs]
      exact List.mem_cons_of_mem p (List.mem_flatMap.mpr ⟨c, hc, ih hcp.has⟩)

/-- Down from one node to another is up from the other to the first. -/
theorem Linked.mem_preorder_iff_mem_ancestors (ht : Linked tree) (hr : tree.Has r) (hne : n ≠ r) :
    n ∈ tree.preorder r ↔ r ∈ tree.ancestors n := by
  rw [ht.mem_preorder_iff hr, ht.mem_ancestors_iff, reflTransGen_iff_eq_or_transGen]
  exact or_iff_right hne.symm

/-- There is one order in which a stack is visited. -/
theorem Visits.unique {stack other : List NodeId} (h : tree.Visits stack ids)
    (h' : tree.Visits stack other) : other = ids := by
  induction h generalizing other with
  | done =>
      cases h'
      rfl
  | next hcs _ ih =>
      cases h' with
      | next hcs' hrest =>
          obtain rfl := Except.ok.inj (hcs'.symm.trans hcs)
          rw [ih hrest]

/-! ## The nearest ancestor of a kind -/

theorem enclosing?_eq_find? (tree : Tree) (n : NodeId) (kind : Kind) :
    tree.enclosing? n kind = (tree.ancestors n).find? fun a => tree.kind a = .ok kind := by
  rw [enclosing?]
  congr 1
  funext a
  cases tree.kind a <;> simp

theorem enclosing?_eq_some_iff {kind : Kind} {a : NodeId} :
    tree.enclosing? n kind = some a ↔
      ∃ before after, tree.ancestors n = before ++ a :: after ∧ tree.kind a = .ok kind ∧
        ∀ b ∈ before, tree.kind b ≠ .ok kind := by
  rw [enclosing?_eq_find?, List.find?_eq_some_iff_append]
  simp only [decide_eq_true_eq, Bool.not_eq_true', decide_eq_false_iff_not]
  constructor
  · rintro ⟨hkind, before, after, hcut, hbefore⟩
    exact ⟨before, after, hcut, hkind, hbefore⟩
  · rintro ⟨before, after, hcut, hkind, hbefore⟩
    exact ⟨hkind, before, after, hcut, hbefore⟩

theorem enclosing?_eq_none_iff {kind : Kind} :
    tree.enclosing? n kind = none ↔ ∀ a ∈ tree.ancestors n, tree.kind a ≠ .ok kind := by
  rw [enclosing?_eq_find?, List.find?_eq_none]
  simp only [decide_eq_true_eq, ne_eq]

/-! ## Roots -/

/-- A climb ends at a node without parent. -/
theorem Linked.exists_root (ht : Linked tree) (hn : tree.Has n) :
    ∃ r, tree.parent r = .ok none ∧ ReflTransGen tree.ChildOf n r := by
  have hclimb : ∀ start path, tree.Climb start path → ∀ n, tree.Has n →
      start = (tree.parent n).toOption.join →
      ∃ r, tree.parent r = .ok none ∧ ReflTransGen tree.ChildOf n r := by
    intro start path h
    induction h with
    | stop =>
        intro n hn hstart
        obtain ⟨node, hnode⟩ := has_iff.mp hn
        refine ⟨n, ?_, ReflTransGen.refl⟩
        rw [parent, hnode] at hstart ⊢
        exact congrArg Except.ok hstart.symm
    | up _ ih =>
        intro n _ hstart
        have hup := join_parent_eq_some_iff.mp hstart.symm
        obtain ⟨r, hr, habove⟩ := ih _ (ht.has_parent hup) rfl
        exact ⟨r, hr, habove.head hup⟩
  exact hclimb _ _ (ht.climb_ancestors n) n hn rfl

theorem not_childOf_of_root (hr : tree.parent r = .ok none) (p : NodeId) :
    ¬ tree.ChildOf r p := by
  intro h
  cases hr.symm.trans h

/-- No two roots are above one node. -/
theorem root_unique {r' : NodeId} (hr : tree.parent r = .ok none)
    (hr' : tree.parent r' = .ok none) (h : ReflTransGen tree.ChildOf n r)
    (h' : ReflTransGen tree.ChildOf n r') : r' = r := by
  have hend : ∀ {a b}, tree.parent a = .ok none → ReflTransGen tree.ChildOf a b → b = a := by
    intro a b ha hab
    rcases ReflTransGen.cases_head hab with he | ⟨p, hp, -⟩
    · exact he.symm
    · exact (not_childOf_of_root ha p hp).elim
  rcases ReflTransGen.total_of_right_unique (rightUnique_childOf tree) h h' with hup | hup
  · exact hend hr hup
  · exact (hend hr' hup).symm

/-- Every node stands in the walk from one root, and no other id does. -/
theorem Linked.has_iff_existsUnique_root (ht : Linked tree) :
    tree.Has n ↔ ∃! r, tree.parent r = .ok none ∧
      ∃ ids, tree.descendants r = .ok ids ∧ n ∈ ids := by
  have hbelow : ∀ {r}, tree.parent r = .ok none →
      ((∃ ids, tree.descendants r = .ok ids ∧ n ∈ ids) ↔ ReflTransGen tree.ChildOf n r) := by
    intro r hroot
    obtain ⟨node, hnode, -⟩ := map_eq_ok_iff.mp hroot
    have hr := has_of_node hnode
    simp [ht.descendants_eq hr, ht.mem_preorder_iff hr]
  constructor
  · intro hn
    obtain ⟨r, hr, habove⟩ := ht.exists_root hn
    refine ⟨r, ⟨hr, (hbelow hr).mpr habove⟩, ?_⟩
    rintro r' ⟨hr', hn'⟩
    exact root_unique hr hr' habove ((hbelow hr').mp hn')
  · rintro ⟨r, ⟨hroot, hn⟩, -⟩
    obtain ⟨node, hnode, -⟩ := map_eq_ok_iff.mp hroot
    exact has_below (has_of_node hnode) ((hbelow hroot).mp hn)

/-! ## Every run -/

/-- A tree whose walks down end, repeat nothing and agree with the lists of nodes
and with the climbs, and whose roots divide the nodes among them. -/
structure Traversed (tree : Tree) : Prop where
  down : ∀ r, tree.Has r → ∃ ids, tree.descendants r = .ok ids ∧ ids.Nodup ∧
    (∀ other, tree.Visits [r] other ↔ other = ids) ∧
    (∀ other, tree.Lists r other ↔ other = ids) ∧
    ∀ n, n ≠ r → (n ∈ ids ↔ r ∈ tree.ancestors n)
  up : ∀ n, tree.Climb (tree.parent n).toOption.join (tree.ancestors n)
  nearest : ∀ n kind a, tree.enclosing? n kind = some a ↔
    ∃ before after, tree.ancestors n = before ++ a :: after ∧ tree.kind a = .ok kind ∧
      ∀ b ∈ before, tree.kind b ≠ .ok kind
  absent : ∀ n kind, tree.enclosing? n kind = none ↔
    ∀ a ∈ tree.ancestors n, tree.kind a ≠ .ok kind
  divided : ∀ n, tree.Has n ↔ ∃! r, tree.parent r = .ok none ∧
    ∃ ids, tree.descendants r = .ok ids ∧ n ∈ ids

theorem Linked.traversed (ht : Linked tree) : Traversed tree where
  down := by
    intro r hr
    have hvisits := ht.visits hr
    have hlists := ht.lists hr
    refine ⟨tree.preorder r, ht.descendants_eq hr, ht.nodup_preorder hr, fun other => ?_,
      fun other => ?_, fun n hne => ht.mem_preorder_iff_mem_ancestors hr hne⟩
    · exact ⟨hvisits.unique, fun he => he ▸ hvisits⟩
    · exact ⟨hlists.unique, fun he => he ▸ hlists⟩
  up := ht.climb_ancestors
  nearest := fun _ _ _ => enclosing?_eq_some_iff
  absent := fun _ _ => enclosing?_eq_none_iff
  divided := fun _ => ht.has_iff_existsUnique_root

/-- The walks of every tree agree after every run, whatever calls were refused. -/
theorem traversed_run (actions : List Workspace.Action) (i : Nat) :
    Traversed ((Workspace.run actions).tree i) :=
  (linked_run actions i).traversed

end TypedSyntax.Tree
