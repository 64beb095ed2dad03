import TypedSyntax.Proofs.Tree.Forest
import TypedSyntax.Proofs.Tree.WellFormed

/-!
# Sound trees

After every run a tree is linked and well-formed. What a slot admits depends on
the slot: no slot of any kind of node admits a module, so that a module in such a
tree has no parent, and functions stand among statements or methods only.
-/

namespace TypedSyntax

/-- The slots for statements. -/
def Payload.listed {α : Type} : Payload α → List α
  | .block _ nodes | .module _ nodes => nodes
  | .classDef _ _ _ attributes methods => attributes ++ methods
  | _ => []

theorem Payload.mem_children_of_mem_listed {α : Type} {p : Payload α} {c : α} (h : c ∈ p.listed) :
    c ∈ p.children := by
  cases p with
  | block | module => exact h
  | classDef header bases decorators attributes methods =>
      rw [Payload.children, List.append_assoc]
      exact List.mem_append_right _ h
  | _ => cases h

namespace Tree

variable {tree : Tree} {id : NodeId} {p : Payload NodeId}

/-- A tree that is linked and well-formed. -/
structure Sound (tree : Tree) : Prop where
  linked : Linked tree
  wellFormed : WellFormed tree

/-- All trees of all runs are linked and well-formed. -/
theorem sound_run (actions : List Workspace.Action) (i : Nat) :
    Sound ((Workspace.run actions).tree i) := by
  apply Workspace.forall_tree_run
  · exact fun i => ⟨linked_empty i, wellFormed_empty i⟩
  · exact fun hid hnodes ht => ⟨ht.linked.quiet hid hnodes, ht.wellFormed.quiet hid hnodes⟩
  · exact fun hpayload hgrown ht =>
      ⟨ht.linked.grown hgrown rfl, ht.wellFormed.grown hgrown (fits_of_payload? hpayload)⟩
  · exact fun hlong ht => ⟨ht.linked.lengthened hlong, ht.wellFormed.lengthened hlong⟩
  · exact fun hcomment ht => ⟨ht.linked.commented hcomment, ht.wellFormed.commented hcomment⟩

theorem Linked.childOf_of_payload (ht : Linked tree) {c : NodeId} (hid : tree.payload id = .ok p)
    (hc : c ∈ p.children) : tree.ChildOf c id := by
  obtain ⟨node, hnode, rfl⟩ := payload_eq_ok_iff.mp hid
  exact ht.childOf_iff_slot.mpr ⟨_, slots_iff.mpr ⟨node, hnode, rfl⟩, hc⟩

theorem Linked.exists_payload (ht : Linked tree) {c : NodeId} (hc : tree.ChildOf c id) :
    ∃ p, tree.payload id = .ok p ∧ c ∈ p.children := by
  obtain ⟨cs, hslots, hmem⟩ := ht.childOf_iff_slot.mp hc
  obtain ⟨node, hnode, rfl⟩ := slots_iff.mp hslots
  exact ⟨_, payload_eq_ok_iff.mpr ⟨node, hnode, rfl⟩, hmem⟩

/-! ## What slots hold -/

theorem HasKind.has {kind : Kind} (h : tree.HasKind kind id) : tree.Has id := by
  obtain ⟨node, hnode, -⟩ := map_eq_ok_iff.mp h
  exact has_of_node hnode

theorem not_hasKind_of_ne {kind kind' : Kind} (h : tree.HasKind kind id) (hne : kind ≠ kind') :
    ¬ tree.HasKind kind' id :=
  fun h' => hne (Except.ok.inj (h.symm.trans h'))

theorem hasKind_of_payload (h : tree.payload id = .ok p) :
    tree.HasKind p.kind id := by
  obtain ⟨node, hnode, hpayload⟩ := payload_eq_ok_iff.mp h
  exact map_eq_ok_iff.mpr ⟨node, hnode, congrArg Payload.kind hpayload⟩

/-- Modules, prototypes and functions have no value. -/
theorem IsExpression.not_hasKind (h : tree.IsExpression id) {kind : Kind}
    (hkind : kind ∈ [Kind.module, .prototype, .function]) : ¬ tree.HasKind kind id := by
  rintro hother
  obtain ⟨type, htype⟩ := h
  obtain ⟨node, hnode, htype⟩ := map_eq_ok_iff.mp htype
  obtain ⟨node', hnode', rfl⟩ := map_eq_ok_iff.mp hother
  obtain rfl := Except.ok.inj (hnode.symm.trans hnode')
  unfold Node.kind at hkind
  cases hp : node.payload with
  | module | prototype | function =>
      rw [hp] at htype
      cases htype
  | _ =>
      rw [hp] at hkind
      simp [Payload.kind] at hkind

/-- What stands in a slot: an expression, a part of another node, the head of a
function, or a statement in a list of statements. -/
inductive Sits (tree : Tree) (p : Payload NodeId) (c : NodeId) : Prop
  | expression : tree.IsExpression c → Sits tree p c
  | part {kind} : kind ∈ [Kind.block, .argument, .declaration, .clause] →
      tree.HasKind kind c → Sits tree p c
  | head {body} : p = .function c body → tree.HasKind .prototype c → Sits tree p c
  | listed : c ∈ p.listed → tree.IsStatement c → Sits tree p c

/-- An expression may stand in any slot. -/
theorem HasType.sits {type : DataType} {c : NodeId} (h : tree.HasType c type) : tree.Sits p c :=
  .expression ⟨type, h⟩

theorem IsTarget.sits {element : DataType} {c : NodeId} (h : tree.IsTarget element c) :
    tree.Sits p c := by
  cases h with
  | @«variable» name type hp =>
      obtain ⟨node, hnode, hpayload⟩ := payload_eq_ok_iff.mp hp
      have htype : tree.HasType c type :=
        map_eq_ok_iff.mpr ⟨node, hnode, congrArg Payload.valueType? hpayload⟩
      exact htype.sits
  | declaration hp =>
      have hkind : tree.HasKind .declaration c := hasKind_of_payload hp
      exact .part (by decide) hkind

/-- The parts of an iteration may stand in their slots. -/
theorem IsIteration.sits {target iterable : NodeId} {conditions : List NodeId}
    (h : tree.IsIteration target iterable conditions) :
    ∀ c ∈ target :: iterable :: conditions, tree.Sits p c := by
  obtain ⟨type, element, htype, -, htarget⟩ := h.elements
  rw [List.forall_mem_cons, List.forall_mem_cons]
  refine ⟨htarget.sits, htype.sits, fun c hc => ?_⟩
  obtain ⟨type, htype, -⟩ := h.conditions c hc
  exact htype.sits

/-- Every slot holds what its kind of node asks for. -/
theorem Fits.sits {p : Payload NodeId} (h : tree.Fits p) : ∀ c ∈ p.children, tree.Sits p c := by
  have hcondition : ∀ {c}, tree.IsCondition c → tree.Sits p c :=
    fun hc => hc.elim fun _ h => h.1.sits
  have hblock : ∀ {c}, tree.HasKind .block c → tree.Sits p c :=
    fun hc => .part (by decide) hc
  have hoption : ∀ {n? : Option NodeId}, (∀ n ∈ n?, tree.Sits p n) →
      ∀ n ∈ n?.toList, tree.Sits p n :=
    fun hn n hmem => hn n (Option.mem_toList.mp hmem)
  cases h with
  | literal | «variable» | breaking | continuing => exact List.forall_mem_nil _
  | collection helements => exact fun c hc => .expression (isExpression_of_types helements c hc)
  | mapping hkeys hvalues =>
      intro c hc
      obtain ⟨entry, hentry, hc⟩ := List.mem_flatMap.mp hc
      rcases List.mem_cons.mp hc with rfl | hc
      · exact .expression (isExpression_of_types hkeys _ (List.mem_map_of_mem hentry))
      · obtain rfl := List.mem_singleton.mp hc
        exact .expression (isExpression_of_types hvalues _ (List.mem_map_of_mem hentry))
  | declaration hvalue | argument hvalue =>
      apply hoption
      intro c hc
      obtain ⟨type, htype, -⟩ := hvalue c hc
      exact htype.sits
  | assignment hvalue | cast hvalue => exact List.forall_mem_singleton.mpr (.expression hvalue)
  | unary hoperand => exact List.forall_mem_singleton.mpr hoperand.sits
  | binary hlhs hrhs =>
      rw [Payload.children, List.forall_mem_cons, List.forall_mem_singleton]
      exact ⟨hlhs.sits, hrhs.sits⟩
  | block hnodes | module hnodes => exact fun c hc => .listed hc (hnodes c hc)
  | prototype harguments => exact fun c hc => .part (by decide) (harguments c hc)
  | function hhead hbody =>
      rw [Payload.children, List.forall_mem_cons, List.forall_mem_singleton]
      exact ⟨.head rfl hhead, hblock hbody⟩
  | call harguments => exact fun c hc => .expression (harguments c hc)
  | returning hvalue => exact hoption fun c hc => .expression (hvalue c hc)
  | conditional h hconsequent halternative =>
      rw [Payload.children, List.forall_mem_cons, List.forall_mem_cons]
      exact ⟨hcondition h, hblock hconsequent, hoption fun c hc => hblock (halternative c hc)⟩
  | whileLoop h hbody =>
      rw [Payload.children, List.forall_mem_cons, List.forall_mem_singleton]
      exact ⟨hcondition h, hblock hbody⟩
  | forLoop h hbody =>
      rw [Payload.children, ← List.cons_append, ← List.cons_append, List.forall_mem_append,
        List.forall_mem_singleton]
      exact ⟨h.sits, hblock hbody⟩
  | @rangeLoop counter start stop step body declared hcounter _ hbounds hbody =>
      have hkind : tree.HasKind .declaration counter := hasKind_of_payload hcounter
      rw [Payload.children, ← List.cons_append, ← List.cons_append, List.forall_mem_cons,
        List.forall_mem_append, List.forall_mem_singleton]
      refine ⟨.part (by decide) hkind, fun c hc => ?_, hblock hbody⟩
      obtain ⟨type, htype, -⟩ := hbounds c hc
      exact htype.sits
  | clause h => exact h.sits
  | comprehension _ hgenerators helement =>
      rw [Payload.children, List.forall_mem_cons]
      exact ⟨helement.sits, fun c hc => .part (by decide) (hgenerators c hc)⟩
  | classDecl h => exact fun c hc => .expression (h c hc)
  | classDef h hattributes hmethods =>
      rw [Payload.children, List.forall_mem_append, List.forall_mem_append]
      exact ⟨⟨fun c hc => .expression (h c hc), fun c hc => .part (by decide) (hattributes c hc)⟩,
        fun c hc => .listed (List.mem_append_right _ hc) ⟨.function, hmethods c hc, by decide⟩⟩

/-- No module is a statement. -/
theorem IsStatement.not_module (h : tree.IsStatement id) : ¬ tree.HasKind .module id := by
  obtain ⟨kind, hkind, hstatement⟩ := h
  apply not_hasKind_of_ne hkind
  rintro rfl
  exact hstatement List.mem_cons_self

/-- No slot holds a module. -/
theorem Fits.not_module {p : Payload NodeId} (h : tree.Fits p) :
    ∀ c ∈ p.children, ¬ tree.HasKind .module c := by
  intro c hc hmodule
  cases h.sits c hc with
  | expression h => exact h.not_hasKind (by decide) hmodule
  | part hpart hkind =>
      refine not_hasKind_of_ne hkind ?_ hmodule
      rintro rfl
      exact absurd hpart (by decide)
  | head _ hkind => exact not_hasKind_of_ne hkind (by decide) hmodule
  | listed _ h => exact h.not_module hmodule

/-- A module has no parent. -/
theorem Sound.not_childOf_module (ht : Sound tree) {p : NodeId} (hid : tree.HasKind .module id) :
    ¬ tree.ChildOf id p := by
  intro hparent
  obtain ⟨payload, hp, hc⟩ := ht.linked.exists_payload hparent
  exact (ht.wellFormed p payload hp).not_module id hc hid

end Tree

end TypedSyntax
