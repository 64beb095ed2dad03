import TypedSyntax.Proofs.Tree.Forest
import TypedSyntax.Term

/-!
# Terms of nodes

Every node of a linked tree has a term, whose children are the terms of the
node's children. No path downwards repeats a node, so that the fuel of a term
never runs out.
-/

namespace TypedSyntax

variable {A B E : Type} {f : A → Except E B} {g : A → B}

/-- A list of successful visits. -/
theorem mapM_eq_ok {xs : List A} (h : ∀ x ∈ xs, f x = .ok (g x)) :
    xs.mapM f = .ok (xs.map g) := by
  rw [mapM_eq_ok_iff, List.forall₂_map_right_iff, List.forall₂_same]
  exact h

/-- Visiting every reference of a payload succeeds if each visit does. -/
theorem Payload.traverse_eq_ok {p : Payload A} (h : ∀ c ∈ p.children, f c = .ok (g c)) :
    p.traverse f = .ok (p.map g) := by
  have hlist : ∀ xs : List A, (∀ x ∈ xs, f x = .ok (g x)) → xs.mapM f = .ok (xs.map g) :=
    fun _ => mapM_eq_ok
  have hoption : ∀ x? : Option A, (∀ x ∈ x?.toList, f x = .ok (g x)) →
      x?.mapM f = .ok (x?.map g) := by
    intro x? hx
    cases x? with
    | none => rfl
    | some x =>
        rw [Option.mapM_some, hx x (by simp)]
        rfl
  have hpure : ∀ {C : Type} (c : C), (pure c : Except E C) = .ok c := fun _ => rfl
  have hbind : ∀ {C D : Type} (c : C) (k : C → Except E D), (Except.ok c >>= k) = k c :=
    fun _ _ => rfl
  cases p with
  | mapping entries type =>
      have hentries : ∀ entry ∈ entries, (do return (← f entry.1, ← f entry.2) : Except E (B × B)) =
          .ok (g entry.1, g entry.2) := by
        intro entry hentry
        have hkey := h entry.1 (List.mem_flatMap.mpr ⟨entry, hentry, by simp⟩)
        have hvalue := h entry.2 (List.mem_flatMap.mpr ⟨entry, hentry, by simp⟩)
        simp only [hkey, hvalue]
        rfl
      calc traverse f (.mapping entries type)
          = (.mapping · type) <$> entries.mapM fun entry => do return (← f entry.1, ← f entry.2) :=
            rfl
        _ = .ok (.mapping (entries.map fun entry => (g entry.1, g entry.2)) type) := by
            rw [mapM_eq_ok hentries]
            rfl
  | _ =>
      simp only [children, List.forall_mem_cons, List.forall_mem_append, List.not_mem_nil,
        false_imp_iff, implies_true, and_true] at h
      simp +contextual only [traverse, map, hlist, hoption, h, implies_true, hpure, hbind]

instance : Nonempty Term :=
  ⟨.node ⟨⟨0, 0⟩, 0, default, "", false⟩ .breaking⟩

namespace Tree

open Relation

variable {tree : Tree}

/-- What holds for a node with fuel left whenever it holds for its children
with one less holds for every node with fuel for a path through the tree. -/
theorem Linked.descend (ht : Linked tree) {P : Nat → NodeId → Prop}
    (step : ∀ fuel id, tree.Has id → (∀ c, tree.ChildOf c id → P fuel c) → P (fuel + 1) id)
    {id : NodeId} (hid : tree.Has id) : P (tree.size + 1) id := by
  have hall : ∀ fuel above id, tree.Has id →
      (id :: above).Pairwise (TransGen tree.ChildOf) → tree.size < fuel + above.length →
      P fuel id := by
    intro fuel
    induction fuel with
    | zero =>
        intro above id hid hpairwise hfuel
        have hnodup : (id :: above).Nodup :=
          List.Pairwise.imp (fun {a b} (h : TransGen tree.ChildOf a b) (he : a = b) =>
            ht.acyclic b (he ▸ h)) hpairwise
        have hhas : ∀ a ∈ id :: above, tree.Has a := by
          intro a ha
          rcases List.mem_cons.mp ha with rfl | ha
          · exact hid
          · exact ht.has_above ((List.pairwise_cons.mp hpairwise).1 a ha)
        have hlength := length_le_size hnodup hhas
        rw [List.length_cons] at hlength
        omega
    | succ fuel ih =>
        intro above id hid hpairwise hfuel
        apply step fuel id hid
        intro c hc
        apply ih (id :: above) c hc.has
        · have habove : ∀ a ∈ id :: above, TransGen tree.ChildOf c a := by
            intro a ha
            rcases List.mem_cons.mp ha with rfl | ha
            · exact TransGen.single hc
            · exact TransGen.head hc ((List.pairwise_cons.mp hpairwise).1 a ha)
          exact List.pairwise_cons.mpr ⟨habove, hpairwise⟩
        · rw [List.length_cons]
          omega
  exact hall (tree.size + 1) [] id hid (List.pairwise_singleton _ _) (by simp)

/-- What holds for a node whenever it holds for its children holds for every
node. -/
theorem Linked.induction (ht : Linked tree) {P : NodeId → Prop}
    (step : ∀ id, tree.Has id → (∀ c, tree.ChildOf c id → P c) → P id) {id : NodeId}
    (hid : tree.Has id) : P id :=
  ht.descend (P := fun _ => P) (fun _ => step) hid

theorem Linked.childOf_of_mem (ht : Linked tree) {id c : NodeId} {node : Node}
    (hnode : tree.node id = .ok node) (hc : c ∈ node.payload.children) : tree.ChildOf c id :=
  ht.childOf_iff_slot.mpr ⟨_, slots_iff.mpr ⟨node, hnode, rfl⟩, hc⟩

/-- Whether a node heads a method can be told from kinds and parents up to names of
nodes. -/
theorem Linked.isMethodHead_congr (ht : Linked tree) {tree' : Tree} {f : NodeId → NodeId}
    (hkind : ∀ {n}, tree.Has n → tree'.kind (f n) = tree.kind n)
    (hparent : ∀ {n}, tree.Has n → tree'.parent (f n) = (tree.parent n).map (Option.map f))
    {n : NodeId} {node node' : Node} (hnode : tree.node n = .ok node)
    (hnode' : tree'.node (f n) = .ok node') :
    tree'.isMethodHead node' = tree.isMethodHead node := by
  have hup : node'.parent = node.parent.map f := by
    have hlink := hparent (has_of_node hnode)
    simpa only [parent, hnode, hnode', Except.map, Except.ok.injEq] using hlink
  rw [isMethodHead, isMethodHead, hup]
  cases hp : node.parent with
  | none => rfl
  | some p =>
      have hchild : tree.ChildOf n p := childOf_iff.mpr ⟨node, hnode, hp⟩
      obtain ⟨above, habove⟩ := has_iff.mp (ht.has_parent hchild)
      rw [Option.map_some, Option.bind_some, Option.bind_some, hparent (has_of_node habove)]
      simp only [parent, habove, Except.map, Except.toOption]
      cases hq : above.parent with
      | none => rfl
      | some q =>
          have htop := ht.has_parent (childOf_iff.mpr ⟨above, habove, hq⟩)
          simp only [Option.map_some, Option.join_some, hkind htop]

theorem termWithin_succ {fuel : Nat} {id : NodeId} {node : Node} {g : NodeId → Term}
    (hnode : tree.node id = .ok node)
    (hg : ∀ c ∈ node.payload.children, tree.termWithin fuel c = .ok (g c)) :
    tree.termWithin (fuel + 1) id =
      .ok (.node ⟨id, node.tag, node.loc, node.comment, tree.isMethodHead node⟩
        (node.payload.map g)) := by
  rw [termWithin, hnode]
  change (do
    let payload ← node.payload.traverse (termWithin tree fuel)
    return Term.node _ payload) = _
  rw [Payload.traverse_eq_ok hg]
  rfl

/-- With enough fuel every node has a term, which does not depend on the fuel. -/
theorem Linked.exists_termWithin (ht : Linked tree) {id : NodeId} (hid : tree.Has id) :
    ∃ t, ∀ fuel > tree.size, tree.termWithin fuel id = .ok t := by
  refine ht.descend (P := fun n id => ∃ t, ∀ fuel ≥ n, tree.termWithin fuel id = .ok t) ?_ hid
  intro n id hid ih
  obtain ⟨node, hnode⟩ := has_iff.mp hid
  have hchild : ∀ c ∈ node.payload.children, ∃ t, ∀ fuel ≥ n, tree.termWithin fuel c = .ok t :=
    fun c hc => ih c (ht.childOf_of_mem hnode hc)
  choose! g hg using hchild
  exact ⟨.node ⟨id, node.tag, node.loc, node.comment, tree.isMethodHead node⟩ (node.payload.map g),
    fun fuel hfuel => by
      obtain ⟨fuel, rfl⟩ := Nat.exists_eq_add_of_le' (Nat.le_trans (Nat.le_add_left 1 n) hfuel)
      exact termWithin_succ hnode fun c hc => hg c hc fuel (by omega)⟩

/-- Every node has a term, which holds the terms of its children. -/
theorem Linked.exists_terms (ht : Linked tree) :
    ∃ g : NodeId → Term, ∀ id node, tree.node id = .ok node →
      tree.term id = .ok (g id) ∧
        g id = .node ⟨id, node.tag, node.loc, node.comment, tree.isMethodHead node⟩
          (node.payload.map g) := by
  have hterm : ∀ id, tree.Has id → ∃ t, ∀ fuel > tree.size, tree.termWithin fuel id = .ok t :=
    fun _ => ht.exists_termWithin
  choose! g hg using hterm
  refine ⟨g, fun id node hnode => ?_⟩
  have hfuel := hg id (has_of_node hnode)
  have hsucc := termWithin_succ hnode fun c hc =>
    hg c (ht.childOf_of_mem hnode hc).has (tree.size + 1) (Nat.lt_succ_self _)
  exact ⟨hfuel _ (Nat.lt_succ_self _),
    Except.ok.inj ((hfuel (tree.size + 2) (by omega)).symm.trans hsucc)⟩

end Tree

end TypedSyntax
