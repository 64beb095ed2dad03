import TypedSyntax.Proofs.Export.Agreement
import TypedSyntax.Proofs.Workspace.Tag

/-!
# Inventory of an export

A full export wraps every node of a subtree once, in preorder; the head of a
function is told by the function. No two wrappers have the same key, not even
in exports of different trees.
-/

namespace TypedSyntax

/-- The keys of the wrappers in a datum. -/
def Datum.wrapperKeys (d : Datum) : List String :=
  d.wrappers.map (·.key)

namespace Tree

open Relation

variable {tree : Tree} {id : NodeId} {node : Node} {g : NodeId → Term} {ids : List NodeId}

/-- The node is a prototype that sits in a function of the list. -/
def sitsIn (tree : Tree) (ids : List NodeId) (n : NodeId) : Bool :=
  decide (tree.kind n = .ok .prototype) &&
    ids.any fun p => decide (tree.kind p = .ok .function ∧ tree.parent n = .ok (some p))

/-- The full export of nodes in their order. A function stands also for the
prototype in it. -/
structure Inventory (tree : Tree) (ids : List NodeId) (full : Datum) : Prop where
  refs : List.Forall₂
    (fun n w => ∃ node, tree.node n = .ok node ∧ w.metadata.get? "ref" = some (.int node.tag))
    (ids.filter fun n => !tree.sitsIn ids n) full.wrappers
  functions : ∀ f ∈ ids, ∀ node head body, tree.node f = .ok node →
    node.payload = .function head body →
      ∃ w ∈ full.wrappers, w.metadata.get? "ref" = some (.int node.tag) ∧
        ∃ signature arguments, tree.payload head = .ok (.prototype signature arguments) ∧
          w.key = numberedKey (bracketed "FUNCTION-DEF" signature.name) node.tag ∧
          w.content.get? "return_type" = some (.text signature.returnType.key) ∧
          ∃ exports, w.content.get? "args" = some (.list exports) ∧
            List.Forall₂ (fun a d => tree.toDatum a .full = .ok d) arguments exports
  keys_nodup : full.wrapperKeys.Nodup

/-- Below the root every node has its parent in the subtree. -/
theorem Linked.exists_parent_mem (ht : Linked tree) (hid : tree.Has id) :
    ∀ n ∈ (tree.preorder id).tail, ∃ p ∈ tree.preorder id, tree.ChildOf n p := by
  refine ht.induction
    (P := fun id => ∀ n ∈ (tree.preorder id).tail, ∃ p ∈ tree.preorder id, tree.ChildOf n p) ?_ hid
  intro id hid ih n hn
  obtain ⟨cs, hs⟩ := exists_slots hid
  rw [ht.preorder_eq hs] at hn ⊢
  obtain ⟨c, hc, hn⟩ := List.mem_flatMap.mp hn
  have hchild := ht.childOf_of_slot hs hc
  obtain ⟨ds, hds⟩ := exists_slots hchild.has
  have hsplit := ht.preorder_eq hds
  rw [hsplit] at hn
  rcases List.mem_cons.mp hn with rfl | hn
  · exact ⟨id, List.mem_cons_self, hchild⟩
  · obtain ⟨p, hp, hparent⟩ := ih c hchild n (by rwa [hsplit])
    exact ⟨p, List.mem_cons_of_mem _ (List.mem_flatMap.mpr ⟨c, hc, hp⟩), hparent⟩

theorem sitsIn_eq_isHead {n p : NodeId} (h : tree.ChildOf n p) (hp : p ∈ ids) :
    tree.sitsIn ids n = tree.isHead n := by
  have hany :
      (ids.any fun q => decide (tree.kind q = .ok .function ∧ tree.parent n = .ok (some q))) =
      decide (tree.kind p = .ok .function) := by
    rw [Bool.eq_iff_iff, List.any_eq_true, decide_eq_true_eq]
    constructor
    · rintro ⟨q, -, hq⟩
      obtain ⟨hkind, hparent⟩ := of_decide_eq_true hq
      rwa [rightUnique_childOf tree h hparent]
    · intro hkind
      exact ⟨p, hp, decide_eq_true ⟨hkind, h⟩⟩
  rw [sitsIn, hany, isHead_eq h]

/-- The root and the nodes below that have a wrapper are all nodes of the
subtree but the heads of its functions. -/
theorem Linked.filter_preorder (ht : Linked tree) (hid : tree.Has id) :
    ((tree.preorder id).filter fun n => !tree.sitsIn (tree.preorder id) n) =
      id :: tree.wrappedBelow id := by
  obtain ⟨cs, hs⟩ := exists_slots hid
  have hroot : tree.sitsIn (tree.preorder id) id = false := by
    rw [sitsIn, Bool.and_eq_false_iff, List.any_eq_false]
    refine Or.inr fun p hp hparent => ?_
    have hchild : tree.ChildOf id p := (of_decide_eq_true hparent).2
    exact ht.acyclic id (TransGen.head' hchild (ht.below_of_mem_preorder hid p hp))
  have hbelow : ∀ n ∈ (tree.preorder id).tail,
      (!tree.sitsIn (tree.preorder id) n) = !tree.isHead n := by
    intro n hn
    obtain ⟨p, hp, hparent⟩ := ht.exists_parent_mem hid n hn
    rw [sitsIn_eq_isHead hparent hp]
  have hsplit : tree.preorder id = id :: (tree.preorder id).tail := by
    rw [ht.preorder_eq hs, List.tail_cons]
  calc
    (tree.preorder id).filter (fun n => !tree.sitsIn (tree.preorder id) n)
      = (id :: (tree.preorder id).tail).filter fun n => !tree.sitsIn (tree.preorder id) n := by
        rw [← hsplit]
    _ = id :: (tree.preorder id).tail.filter fun n => !tree.sitsIn (tree.preorder id) n :=
        List.filter_cons_of_pos (by rw [hroot]; rfl)
    _ = id :: tree.wrappedBelow id := by rw [List.filter_congr hbelow, wrappedBelow]

/-- The key of a wrapper is the tag of its node and its instance tag. -/
theorem Cuts.key_eq (hg : tree.Cuts g) (hnode : tree.node id = .ok node) :
    (g id).wrapper.key = numberedKey (g id).label node.tag := by
  rw [Term.wrapper, Term.wrapperOf, hg.node_eq hnode]
  rfl

theorem Cuts.ref_eq (hg : tree.Cuts g) (hnode : tree.node id = .ok node) :
    (g id).wrapper.metadata.get? "ref" = some (.int node.tag) :=
  (hg.describes hnode).ref_eq

/-- A function bears the name of its head. -/
theorem Cuts.label_function (hg : tree.Cuts g) (hnode : tree.node id = .ok node)
    {head body : NodeId} (hpayload : node.payload = .function head body) {proto : Node}
    (hproto : tree.node head = .ok proto) {signature : Signature} {arguments : List NodeId}
    (hprototype : proto.payload = .prototype signature arguments) :
    (g id).label = bracketed "FUNCTION-DEF" signature.name := by
  rw [hg.node_eq hnode, hpayload, Payload.map, Term.label, Term.tag, Term.payload,
    hg.node_eq hproto, hprototype]
  rfl

/-- A function shows the arguments and the return type of its head. -/
theorem Cuts.content_function (hg : tree.Cuts g) (hnode : tree.node id = .ok node)
    {head body : NodeId} (hpayload : node.payload = .function head body) {proto : Node}
    (hproto : tree.node head = .ok proto) {signature : Signature} {arguments : List NodeId}
    (hprototype : proto.payload = .prototype signature arguments) :
    (g id).content .full =
      .map [("args", .list (arguments.map fun a => (g a).datum .full)),
        ("return_type", .text signature.returnType.key), ("body", (g body).datum .full)] := by
  rw [hg.content_eq hnode, hpayload, Payload.map,
    hg.content_prototype hproto hprototype .full]
  rfl

/-- A function shows the arguments and the return type of its prototype under its own
key. -/
theorem Cuts.function_entry (hg : tree.Cuts g) (hnode : tree.node id = .ok node)
    {head body : NodeId} (hpayload : node.payload = .function head body) :
    ∃ signature arguments, tree.payload head = .ok (.prototype signature arguments) ∧
      (g id).wrapper.key = numberedKey (bracketed "FUNCTION-DEF" signature.name) node.tag ∧
      (g id).wrapper.content.get? "return_type" = some (.text signature.returnType.key) ∧
      ∃ exports, (g id).wrapper.content.get? "args" = some (.list exports) ∧
        List.Forall₂ (fun a d => tree.toDatum a .full = .ok d) arguments exports := by
  obtain ⟨⟨proto, signature, arguments, hproto, hprototype⟩, -⟩ :=
    hg.wellFormed.function_slots hnode hpayload
  have hcontent : (g id).wrapper.content = _ :=
    hg.content_function hnode hpayload hproto hprototype
  refine ⟨signature, arguments, map_eq_ok_iff.mpr ⟨proto, hproto, hprototype⟩, ?_, ?_,
    arguments.map fun a => (g a).datum .full, ?_, ?_⟩
  · rw [hg.key_eq hnode, hg.label_function hnode hpayload hproto hprototype]
  · rw [hcontent]
    rfl
  · rw [hcontent]
    rfl
  · rw [List.forall₂_map_right_iff, List.forall₂_same]
    intro a ha
    have hargument : a ∈ proto.payload.children := by rwa [hprototype, Payload.children]
    exact hg.toDatum_eq (hg.linked.childOf_of_mem hproto hargument).has .full

/-- The keys in an export are those of the nodes that have a wrapper. -/
theorem Cuts.wrapperKeys_eq (hg : tree.Cuts g) (hid : tree.Has id) :
    ((g id).datum .full).wrapperKeys =
      (id :: tree.wrappedBelow id).map fun n => (g n).wrapper.key := by
  rw [Datum.wrapperKeys, hg.wrappers_datum hid, List.map_map]
  rfl

/-- Nodes with one key have one tag. -/
theorem Cuts.exists_tag {tree' : Tree} {g' : NodeId → Term} (hg : tree.Cuts g)
    (hg' : tree'.Cuts g') {n m : NodeId} (hn : tree.Has n) (hm : tree'.Has m)
    (hkey : (g n).wrapper.key = (g' m).wrapper.key) :
    ∃ tag, tree.TagAt n tag ∧ tree'.TagAt m tag := by
  obtain ⟨node, hnode⟩ := has_iff.mp hn
  obtain ⟨node', hnode'⟩ := has_iff.mp hm
  rw [hg.key_eq hnode, hg'.key_eq hnode'] at hkey
  exact ⟨node.tag, ⟨node, hnode, rfl⟩, node', hnode', (eq_of_numberedKey_eq hkey).symm⟩

/-- No two wrappers in an export have one key. -/
theorem Cuts.nodup_wrapperKeys (hg : tree.Cuts g) (hid : tree.Has id)
    (hunique : ∀ {n m tag}, tree.TagAt n tag → tree.TagAt m tag → n = m) :
    ((g id).datum .full).wrapperKeys.Nodup := by
  have ht := hg.linked
  rw [hg.wrapperKeys_eq hid]
  have hnodup := (ht.nodup_preorder hid).sublist (ht.wrapped_sublist hid)
  refine hnodup.map_on fun n hn m hm hkey => ?_
  obtain ⟨tag, htag, htag'⟩ :=
    hg.exists_tag hg (ht.has_of_mem_wrapped hid hn) (ht.has_of_mem_wrapped hid hm) hkey
  exact hunique htag htag'

/-- Exports of different trees have no key in common. -/
theorem Cuts.disjoint_wrapperKeys {tree' : Tree} {g' : NodeId → Term} {other : NodeId}
    (hg : tree.Cuts g) (hid : tree.Has id) (hg' : tree'.Cuts g') (hother : tree'.Has other)
    (hapart : ∀ {n m tag}, tree.TagAt n tag → ¬ tree'.TagAt m tag) :
    List.Disjoint ((g id).datum .full).wrapperKeys ((g' other).datum .full).wrapperKeys := by
  intro key hkey hkey'
  rw [hg.wrapperKeys_eq hid] at hkey
  rw [hg'.wrapperKeys_eq hother] at hkey'
  obtain ⟨n, hn, rfl⟩ := List.mem_map.mp hkey
  obtain ⟨m, hm, heq⟩ := List.mem_map.mp hkey'
  obtain ⟨tag, htag, htag'⟩ := hg.exists_tag hg' (hg.linked.has_of_mem_wrapped hid hn)
    (hg'.linked.has_of_mem_wrapped hother hm) heq.symm
  exact hapart htag htag'

/-- The full export of a subtree is an inventory of it if the tags of the tree
are different. -/
theorem Cuts.inventory (hg : tree.Cuts g) (hid : tree.Has id)
    (hunique : ∀ {n m tag}, tree.TagAt n tag → tree.TagAt m tag → n = m) :
    tree.Inventory (tree.preorder id) ((g id).datum .full) where
  refs := by
    rw [hg.linked.filter_preorder hid, hg.wrappers_datum hid, List.forall₂_map_right_iff,
      List.forall₂_same]
    intro n hn
    obtain ⟨node, hnode⟩ := has_iff.mp (hg.linked.has_of_mem_wrapped hid hn)
    exact ⟨node, hnode, hg.ref_eq hnode⟩
  functions := by
    intro f hf node head body hnode hpayload
    have hshown : f ∈ (tree.preorder id).filter fun n => !tree.sitsIn (tree.preorder id) n := by
      have hkind : tree.kind f = .ok .function :=
        map_eq_ok_iff.mpr ⟨node, hnode, by rw [Node.kind, hpayload, Payload.kind]⟩
      rw [List.mem_filter, sitsIn, hkind]
      exact ⟨hf, rfl⟩
    rw [hg.linked.filter_preorder hid] at hshown
    refine ⟨(g f).wrapper, ?_, hg.ref_eq hnode, hg.function_entry hnode hpayload⟩
    rw [hg.wrappers_datum hid]
    exact List.mem_map_of_mem hshown
  keys_nodup := hg.nodup_wrapperKeys hid hunique

/-- After every run the full export of a node is an inventory of its subtree.
It shares no key with a full export of another tree, now or after further
calls. -/
theorem inventory_run (actions : List Workspace.Action) (i : Nat) (id : NodeId)
    (hid : ((Workspace.run actions).tree i).Has id) :
    let tree := (Workspace.run actions).tree i
    ∃ full ids, tree.toDatum id .full = .ok full ∧ tree.descendants id = .ok ids ∧
      tree.Inventory ids full ∧
      ∀ later j other, j ≠ i → ((Workspace.run (actions ++ later)).tree j).Has other →
        ∃ full', ((Workspace.run (actions ++ later)).tree j).toDatum other .full = .ok full' ∧
          List.Disjoint full.wrapperKeys full'.wrapperKeys := by
  intro tree
  obtain ⟨g, hg⟩ : ∃ g, tree.Cuts g := cuts_run actions i
  refine ⟨(g id).datum .full, tree.preorder id, hg.toDatum_eq hid .full,
    hg.linked.descendants_eq hid, ?_, ?_⟩
  · exact hg.inventory hid fun htag htag' =>
      ((Workspace.tagged_run actions).unique htag htag').2
  · intro later j other hne hother
    obtain ⟨g', hg'⟩ := cuts_run (actions ++ later) j
    refine ⟨(g' other).datum .full, hg'.toDatum_eq hother .full, ?_⟩
    apply hg.disjoint_wrapperKeys hid hg' hother
    intro n m tag htag htag'
    have hkept := Workspace.tagAt_run_append actions later htag
    exact hne ((Workspace.tagged_run (actions ++ later)).unique htag' hkept).1

/-- A run that builds a function in one tree and a variable in another. -/
def interleaved : List Workspace.Action :=
  [.newTree, .newTree,
    .build 0 (.argument ⟨"x", .int true .w64, .constant⟩ none),
    .build 1 (.variable "x" (.int true .w64)),
    .build 0 (.prototype ⟨"f", .int true .w64, .«global», .«public», .constant⟩ [⟨0, 0⟩]),
    .build 0 (.variable "x" (.int true .w64)),
    .build 0 (.returning (some ⟨0, 2⟩)),
    .build 0 (.block "body" [⟨0, 3⟩]),
    .build 0 (.function ⟨0, 1⟩ ⟨0, 4⟩)]

/-- Calls on two trees in turn give each node a key of its own. -/
theorem inventory_interleaved :
    let tree := (Workspace.run interleaved).tree 0
    let second := (Workspace.run interleaved).tree 1
    tree.Has ⟨0, 5⟩ ∧ second.Has ⟨1, 0⟩ ∧
      ∃ full, tree.toDatum ⟨0, 5⟩ .full = .ok full ∧
        full.wrapperKeys = ["FUNCTION-DEF[f]#7", "ARGUMENT[x: Int64]#1", "BLOCK[body]#6",
          "RETURN#5", "VARIABLE[x]#4"] ∧
        tree.Inventory [⟨0, 5⟩, ⟨0, 1⟩, ⟨0, 0⟩, ⟨0, 4⟩, ⟨0, 3⟩, ⟨0, 2⟩] full ∧
        ∃ full', second.toDatum ⟨1, 0⟩ .full = .ok full' ∧
          List.Disjoint full.wrapperKeys full'.wrapperKeys := by
  intro tree second
  have hid : tree.Has ⟨0, 5⟩ := ⟨rfl, by decide⟩
  have hother : second.Has ⟨1, 0⟩ := ⟨rfl, by decide⟩
  obtain ⟨full, ids, hfull, hids, hinventory, hapart⟩ := inventory_run interleaved 0 ⟨0, 5⟩ hid
  have hkeys : (tree.toDatum ⟨0, 5⟩ .full).map (·.wrapperKeys) = .ok ["FUNCTION-DEF[f]#7",
      "ARGUMENT[x: Int64]#1", "BLOCK[body]#6", "RETURN#5", "VARIABLE[x]#4"] := by decide +kernel
  have hvisited : tree.descendants ⟨0, 5⟩ =
      .ok [⟨0, 5⟩, ⟨0, 1⟩, ⟨0, 0⟩, ⟨0, 4⟩, ⟨0, 3⟩, ⟨0, 2⟩] := by decide +kernel
  rw [hfull] at hkeys
  obtain rfl := Except.ok.inj (hids.symm.trans hvisited)
  exact ⟨hid, hother, full, hfull, Except.ok.inj hkeys, hinventory,
    hapart [] 1 ⟨1, 0⟩ (by decide) hother⟩

end Tree

end TypedSyntax
