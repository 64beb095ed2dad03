import TypedSyntax.Proofs.Export.Content
import TypedSyntax.Proofs.Tree.Preorder
import TypedSyntax.Proofs.Tree.Sound

/-!
# Exports of subtrees

What a full export is without its metadata, and which nodes its wrappers stand
for: all nodes of the subtree in preorder, except for the heads of functions.
-/

namespace TypedSyntax

namespace Tree

open Relation

variable {tree : Tree} {id : NodeId} {node : Node} {g : NodeId → Term}

/-- The tree is linked and well-formed, and the function cuts out the terms of
its nodes. -/
structure Cuts (tree : Tree) (g : NodeId → Term) : Prop where
  linked : Linked tree
  wellFormed : WellFormed tree
  term_eq : ∀ {id node}, tree.node id = .ok node → tree.term id = .ok (g id)
  node_eq : ∀ {id node}, tree.node id = .ok node →
    g id = .node ⟨id, node.tag, node.loc, node.comment, tree.isMethodHead node⟩ (node.payload.map g)

/-- After every run the terms of all nodes can be cut out. -/
theorem cuts_run (actions : List Workspace.Action) (i : Nat) :
    ∃ g, ((Workspace.run actions).tree i).Cuts g := by
  have ht := sound_run actions i
  obtain ⟨g, hg⟩ := ht.linked.exists_terms
  exact ⟨g, ht.linked, ht.wellFormed, fun hnode => (hg _ _ hnode).1,
    fun hnode => (hg _ _ hnode).2⟩

theorem Cuts.content_eq (hg : tree.Cuts g) (hnode : tree.node id = .ok node) (detail : Detail) :
    (g id).content detail =
      Term.contentFrom detail (node.payload.map fun c => (g c, (g c).content detail)) := by
  rw [hg.node_eq hnode, Term.content_node, Payload.map_map]

/-- The head of a function is a prototype, and its body is none. -/
theorem WellFormed.function_slots (hw : WellFormed tree) (hnode : tree.node id = .ok node)
    {head body : NodeId} (hpayload : node.payload = .function head body) :
    (∃ proto signature arguments, tree.node head = .ok proto ∧
      proto.payload = .prototype signature arguments) ∧ tree.kind body = .ok .block := by
  have hfits : tree.Fits (.function head body) :=
    hw id _ (map_eq_ok_iff.mpr ⟨node, hnode, hpayload⟩)
  cases hfits with
  | function hhead hbody =>
      refine ⟨?_, hbody⟩
      obtain ⟨proto, hproto, hkind⟩ := map_eq_ok_iff.mp hhead
      unfold Node.kind at hkind
      cases hp : proto.payload with
      | prototype signature arguments => exact ⟨proto, signature, arguments, hproto, hp⟩
      | _ =>
          rw [hp] at hkind
          cases hkind

/-- The head of a function is still a prototype among the terms of the nodes. -/
theorem Cuts.headed_map (hg : tree.Cuts g) (hnode : tree.node id = .ok node) :
    (node.payload.map g).Headed := by
  intro head body hpayload
  cases hp : node.payload with
  | function h b =>
      rw [hp] at hpayload
      obtain ⟨rfl, rfl⟩ := Payload.function.inj hpayload
      obtain ⟨⟨proto, signature, arguments, hproto, hprototype⟩, -⟩ :=
        hg.wellFormed.function_slots hnode hp
      rw [hg.node_eq hproto, hprototype]
      rfl
  | _ =>
      rw [hp] at hpayload
      cases hpayload

/-- Every node is exported without an error, since the head of every function is a
prototype. -/
theorem Cuts.shown_eq (hg : tree.Cuts g) (hid : tree.Has id) (detail : Detail) :
    (g id).shown detail = .ok ⟨(g id).content detail, (g id).datum detail⟩ := by
  refine hg.linked.induction (P := fun id =>
    (g id).shown detail = .ok ⟨(g id).content detail, (g id).datum detail⟩) ?_ hid
  intro id hid ih
  obtain ⟨node, hnode⟩ := has_iff.mp hid
  rw [hg.node_eq hnode]
  apply Term.shown_eq (hg.headed_map hnode)
  rw [Payload.children_map, List.forall_mem_map]
  exact fun c hc => ih c (hg.linked.childOf_of_mem hnode hc)

/-- Every node has an export, which is that of its term. -/
theorem Cuts.toDatum_eq (hg : tree.Cuts g) (hid : tree.Has id) (detail : Detail) :
    tree.toDatum id detail = .ok ((g id).datum detail) := by
  obtain ⟨node, hnode⟩ := has_iff.mp hid
  rw [Tree.toDatum, hg.term_eq hnode, ok_bind, Term.toDatum, hg.shown_eq hid]
  rfl

/-- A prototype shows its arguments and its return type. -/
theorem Cuts.content_prototype (hg : tree.Cuts g) (hnode : tree.node id = .ok node)
    {signature : Signature} {arguments : List NodeId}
    (hpayload : node.payload = .prototype signature arguments) (detail : Detail) :
    (g id).content detail =
      .map [("args", .list (arguments.map fun a => (g a).datum detail)),
        ("return_type", .text signature.returnType.key)] := by
  rw [hg.content_eq hnode, hpayload, Payload.map, Term.contentFrom, Payload.map,
    Term.contentOf]
  simp only [List.map_map]
  rfl

/-- A function finds several entries in the content of its head. -/
theorem Cuts.headed (hg : tree.Cuts g) (hnode : tree.node id = .ok node) (detail : Detail) :
    Term.Headed (node.payload.map fun c => (g c, (g c).content detail)) := by
  intro head body hpayload
  cases hp : node.payload with
  | function h b =>
      rw [hp] at hpayload
      obtain ⟨rfl, rfl⟩ := Payload.function.inj hpayload
      obtain ⟨⟨proto, signature, arguments, hproto, hprototype⟩, -⟩ :=
        hg.wellFormed.function_slots hnode hp
      exact ⟨_, _, _, hg.content_prototype hproto hprototype detail⟩
  | _ =>
      rw [hp] at hpayload
      cases hpayload

/-- The full content of every node erases to its simplified content. -/
theorem Cuts.erase_content (hg : tree.Cuts g) (hid : tree.Has id) :
    ((g id).content .full).erase = (g id).content .simplified := by
  refine hg.linked.induction
    (P := fun id => ((g id).content .full).erase = (g id).content .simplified) ?_ hid
  intro id hid ih
  obtain ⟨node, hnode⟩ := has_iff.mp hid
  rw [hg.content_eq hnode, hg.content_eq hnode, Term.erase_contentFrom (hg.headed hnode .full),
    Payload.map_map]
  congr 1
  apply Payload.map_congr
  intro c hc
  rw [ih c (hg.linked.childOf_of_mem hnode hc)]

/-- A full export without metadata is the simplified one. -/
theorem Cuts.erase_datum (hg : tree.Cuts g) (hid : tree.Has id) :
    ((g id).datum .full).erase = (g id).datum .simplified := by
  rw [Term.datum, Term.erase_exported, hg.erase_content hid]
  rfl

/-! ## Nodes with a wrapper -/

/-- The node is a prototype below a function. -/
def isHead (tree : Tree) (n : NodeId) : Bool :=
  decide (tree.kind n = .ok .prototype) &&
    match tree.parent n with
    | .ok (some p) => decide (tree.kind p = .ok .function)
    | _ => false

theorem isHead_eq {c p : NodeId} (h : tree.ChildOf c p) :
    tree.isHead c =
      (decide (tree.kind c = .ok .prototype) && decide (tree.kind p = .ok .function)) := by
  rw [isHead, show tree.parent c = .ok (some p) from h]

/-- The children of a node other than a function are no heads. -/
theorem Linked.not_isHead (ht : Linked tree) (hnode : tree.node id = .ok node)
    (h : node.payload.kind ≠ .function) : ∀ c ∈ node.payload.children, tree.isHead c = false := by
  intro c hc
  have hkind : tree.kind id = .ok node.payload.kind := map_eq_ok_iff.mpr ⟨node, hnode, rfl⟩
  rw [isHead_eq (ht.childOf_of_mem hnode hc), hkind]
  simp [h]

/-- Of the children of a function only the first is a head. -/
theorem Linked.isHead_function (ht : Linked tree) (hw : WellFormed tree)
    (hnode : tree.node id = .ok node) {head body : NodeId}
    (hpayload : node.payload = .function head body) :
    tree.isHead head = true ∧ tree.isHead body = false := by
  obtain ⟨⟨proto, signature, arguments, hproto, hprototype⟩, hbody⟩ :=
    hw.function_slots hnode hpayload
  have hchildren : node.payload.children = [head, body] := by rw [hpayload, Payload.children]
  have hhead : tree.kind head = .ok .prototype :=
    map_eq_ok_iff.mpr ⟨proto, hproto, by rw [Node.kind, hprototype, Payload.kind]⟩
  have hkind : tree.kind id = .ok .function :=
    map_eq_ok_iff.mpr ⟨node, hnode, by rw [Node.kind, hpayload, Payload.kind]⟩
  constructor
  · rw [isHead_eq (ht.childOf_of_mem hnode (by simp [hchildren])), hhead, hkind]
    rfl
  · rw [isHead_eq (ht.childOf_of_mem hnode (by simp [hchildren])), hbody]
    rfl

/-- The nodes below a node that have a wrapper of their own, in preorder. -/
def wrappedBelow (tree : Tree) (id : NodeId) : List NodeId :=
  (tree.preorder id).tail.filter fun n => !tree.isHead n

/-- Below a node are its children, except for heads, and what is below each child. -/
theorem Linked.wrappedBelow_eq (ht : Linked tree) {cs : List NodeId} (hs : tree.Slots id cs) :
    tree.wrappedBelow id =
      cs.flatMap fun c => (if tree.isHead c then [] else [c]) ++ tree.wrappedBelow c := by
  rw [wrappedBelow, ht.preorder_eq hs, List.tail_cons, List.filter_flatMap]
  apply List.flatMap_congr
  intro c hc
  obtain ⟨ds, hds⟩ := exists_slots (ht.present hs c hc)
  rw [wrappedBelow, ht.preorder_eq hds, List.filter_cons, List.tail_cons]
  cases tree.isHead c <;> rfl

/-- The nodes with a wrapper are in the order of the walk. -/
theorem Linked.wrapped_sublist (ht : Linked tree) (hid : tree.Has id) :
    (id :: tree.wrappedBelow id).Sublist (tree.preorder id) := by
  obtain ⟨cs, hs⟩ := exists_slots hid
  rw [wrappedBelow, ht.preorder_eq hs, List.tail_cons]
  exact List.filter_sublist.cons_cons id

theorem Linked.has_of_mem_wrapped (ht : Linked tree) (hid : tree.Has id) {n : NodeId}
    (hn : n ∈ id :: tree.wrappedBelow id) : tree.Has n :=
  ht.has_of_mem_preorder hid ((ht.wrapped_sublist hid).subset hn)

/-- The wrappers in the full content of a node are those of the nodes below
that are no heads of functions, in preorder. -/
theorem Cuts.wrappers_content (hg : tree.Cuts g) (hid : tree.Has id) :
    ((g id).content .full).wrappers = (tree.wrappedBelow id).map fun n => (g n).wrapper := by
  have ht := hg.linked
  refine ht.induction (P := fun id => ((g id).content .full).wrappers =
    (tree.wrappedBelow id).map fun n => (g n).wrapper) ?_ hid
  intro id hid ih
  obtain ⟨node, hnode⟩ := has_iff.mp hid
  -- The wrapper of a child comes before those below it.
  have hchild : ∀ c ∈ node.payload.children,
      ((g c).exported .full ((g c).content .full)).wrappers =
        (c :: tree.wrappedBelow c).map fun n => (g n).wrapper := by
    intro c hc
    rw [Term.wrappers_exported, ih c (ht.childOf_of_mem hnode hc)]
    rfl
  rw [hg.content_eq hnode, ht.wrappedBelow_eq (slots_iff.mpr ⟨node, hnode, rfl⟩)]
  by_cases hfunction : ∃ head body, node.payload = .function head body
  · obtain ⟨head, body, hpayload⟩ := hfunction
    have hchildren : node.payload.children = [head, body] := by rw [hpayload, Payload.children]
    obtain ⟨hhead, hbody⟩ := ht.isHead_function hg.wellFormed hnode hpayload
    have hentries : Term.Entries ((g head).content .full) :=
      hg.headed hnode .full (g head, (g head).content .full) (g body, (g body).content .full)
        (by rw [hpayload, Payload.map])
    have hbelow := ih head (ht.childOf_of_mem hnode (by simp [hchildren]))
    rw [hchildren, hpayload, Payload.map, Term.wrappers_contentFrom_function hentries, hbelow,
      hchild body (by simp [hchildren])]
    simp [hhead, hbody]
  · have hkind : node.payload.kind ≠ .function := by
      intro hkind
      cases hp : node.payload with
      | function head body => exact hfunction ⟨head, body, hp⟩
      | _ =>
          rw [hp] at hkind
          cases hkind
    rw [Term.wrappers_contentFrom (by rwa [Payload.kind_map]), Payload.children_map,
      List.flatMap_map, List.map_flatMap]
    apply List.flatMap_congr
    intro c hc
    rw [hchild c hc, ht.not_isHead hnode hkind c hc]
    rfl

/-- The wrappers of a full export are those of the root and of the nodes below
that are no heads of functions, in preorder. -/
theorem Cuts.wrappers_datum (hg : tree.Cuts g) (hid : tree.Has id) :
    ((g id).datum .full).wrappers =
      (id :: tree.wrappedBelow id).map fun n => (g n).wrapper := by
  rw [Term.datum, Term.wrappers_exported, hg.wrappers_content hid]
  rfl

end Tree

end TypedSyntax
