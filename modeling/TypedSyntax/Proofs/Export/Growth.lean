import TypedSyntax.Proofs.Export.Inventory
import TypedSyntax.Proofs.Export.Normal
import TypedSyntax.Proofs.Workspace.Handle

/-!
# Growth of exports

A call changes the simplified export of a node only if it adds a statement to
a block in the subtree. The export of the statement is then added at the end of
the list of this block.
-/

namespace TypedSyntax

namespace Datum

/-- A list with one more item. -/
def push : Datum → Datum → Datum
  | .list items, item => .list (items ++ [item])
  | other, _ => other

variable (key : String) (item : Datum)

mutual

/-- The datum with one more item in the list that is the content of the wrapper
with a key. -/
def addItem : Datum → Datum
  | .map [(k, .map [("content", content), ("metadata", metadata)])] =>
    .map [(k, .map [
      ("content", if k = key then (addItem content).push item else addItem content),
      ("metadata", metadata)])]
  | .map entries => .map (addItemEntries entries)
  | .list items => .list (addItems items)
  | .bool b => .bool b
  | .int i => .int i
  | .float x => .float x
  | .text s => .text s

def addItems : List Datum → List Datum
  | [] => []
  | d :: ds => addItem d :: addItems ds

def addItemEntries : List (String × Datum) → List (String × Datum)
  | [] => []
  | (k, value) :: entries => (k, addItem value) :: addItemEntries entries

end

theorem addItemEntries_eq (entries : List (String × Datum)) :
    addItemEntries key item entries = entries.map fun e => (e.1, addItem key item e.2) := by
  induction entries with
  | nil => rfl
  | cons e entries ih => rw [addItemEntries, ih, List.map_cons]

/-- An item is added below the items of a list one by one. -/
@[simp]
theorem addItem_list (items : List Datum) :
    addItem key item (Datum.list items) = .list (items.map (addItem key item)) := by
  have hitems : addItems key item items = items.map (addItem key item) := by
    induction items with
    | nil => rfl
    | cons d items ih => rw [addItems, ih, List.map_cons]
  rw [addItem, hitems]

@[simp] theorem addItem_empty : addItem key item .empty = .empty := rfl

@[simp] theorem addItem_text (s : String) : addItem key item (Datum.text s) = .text s := rfl

/-- A map of several entries is no wrapper. -/
@[simp]
theorem addItem_map_cons_cons (e e' : String × Datum) (entries : List (String × Datum)) :
    addItem key item (Datum.map (e :: e' :: entries)) =
      .map ((e :: e' :: entries).map fun e => (e.1, addItem key item e.2)) := by
  rw [addItem, addItemEntries_eq]
  nofun

end Datum

namespace LiteralValue

variable {key : String} {item : Datum}

theorem addItem_integerDatum (i : Int) :
    Datum.addItem key item (integerDatum i) = integerDatum i := by
  unfold integerDatum
  split <;> rfl

theorem addItem_floatDatum (x : Double) : Datum.addItem key item (floatDatum x) = floatDatum x := by
  unfold floatDatum
  split <;> rfl

/-- A literal value holds no wrapper to add to. -/
theorem addItem_toDatum (v : LiteralValue) : Datum.addItem key item v.toDatum = v.toDatum := by
  cases v with
  | int | uint => exact addItem_integerDatum _
  | float => exact addItem_floatDatum _
  | complex real imag =>
      rw [toDatum, Datum.addItem_map_cons_cons, List.map_cons, List.map_cons, List.map_nil,
        addItem_floatDatum, addItem_floatDatum]
  | bool | text | char | temporal => rfl

end LiteralValue

namespace Term

variable {key : String} {item : Datum}

/-- The content of a node after an item was added below the node or, if the key
is its own, to its list. -/
def grow (key : String) (item : Datum) (t : Term) (content : Datum) : Datum :=
  if numberedKey t.label t.info.tag = key then (Datum.addItem key item content).push item
  else Datum.addItem key item content

/-- An item is added below a node by adding it to the content of the node. -/
@[simp]
theorem addItem_exported (t : Term) (content : Datum) :
    Datum.addItem key item (t.exported .full content) =
      t.exported .full (t.grow key item content) :=
  rfl

/-- An item is added to the content of a node by adding it to the contents of
the children. -/
theorem addItem_contentFrom {payload : Payload (Term × Datum)} (h : Headed payload) :
    Datum.addItem key item (contentFrom .full payload) =
      contentFrom .full (payload.map fun c => (c.1, c.1.grow key item c.2)) := by
  cases payload with
  | literal value => exact LiteralValue.addItem_toDatum value
  | declaration _ child | argument _ child | returning child => cases child <;> rfl
  | function head body =>
      obtain ⟨t, content⟩ := head
      obtain ⟨e, e', entries, rfl⟩ := h _ _ rfl
      -- The content of a head is a map, which `push` leaves as it is.
      have hgrow : t.grow key item (.map (e :: e' :: entries)) =
          .map ((e :: e' :: entries).map fun e => (e.1, Datum.addItem key item e.2)) := by
        rw [grow, Datum.addItem_map_cons_cons]
        split <;> rfl
      simp [contentFrom, contentOf, Payload.map, hgrow]
  | conditional _ _ alternative => cases alternative <;> simp [contentFrom, contentOf, Payload.map]
  | rangeLoop _ _ _ step => cases step <;> simp [contentFrom, contentOf, Payload.map]
  | _ => simp [contentFrom, contentOf, Payload.map, Function.comp_def]

/-- A further statement of a block or module is shown at the end. -/
theorem contentFrom_addStatement {α : Type} {detail : Detail} {f : α → Term × Datum}
    {p : Payload α} (h : p.kind ∈ [Kind.block, .module]) (child : α) :
    contentFrom detail ((p.addStatement child).map f) =
      (contentFrom detail (p.map f)).push ((f child).1.exported detail (f child).2) := by
  cases p <;> simp [Payload.kind] at h <;>
    simp [Payload.addStatement, Payload.map, contentFrom, contentOf, Datum.push]

end Term

namespace Tree

open Relation

variable {tree tree' : Tree} {block child n : NodeId} {node : Node} {g g' : NodeId → Term}

/-- An append changes no attribute of a node and the payload of the block
only. -/
theorem Lengthened.exists_node (h : tree.Lengthened tree' block child)
    (hnode : tree.node n = .ok node) :
    ∃ node', tree'.node n = .ok node' ∧
      (node'.tag = node.tag ∧ node'.loc = node.loc ∧ node'.comment = node.comment) ∧
      node'.payload = if n = block then node.payload.addStatement child else node.payload := by
  have hnode' := h.node_eq n
  rw [hnode] at hnode'
  refine ⟨_, hnode', ?_⟩
  split
  · exact ⟨⟨rfl, rfl, rfl⟩, rfl⟩
  · split <;> exact ⟨⟨rfl, rfl, rfl⟩, rfl⟩

section Lengthened

variable (h : tree.Lengthened tree' block child) (hg : tree.Cuts g) (hg' : tree'.Cuts g')
include h hg hg'

/-- An append changes no tag. -/
theorem Lengthened.label_eq (hn : tree.Has n) : (g' n).label = (g n).label := by
  obtain ⟨node, hnode⟩ := Tree.has_iff.mp hn
  obtain ⟨node', hnode', -, hpayload⟩ := h.exists_node hnode
  cases hp : node.payload with
  | function head body =>
      have hp' : node'.payload = .function head body := by
        rw [hpayload, hp]
        split <;> rfl
      obtain ⟨⟨proto, signature, arguments, hproto, hprototype⟩, -⟩ :=
        hg.wellFormed.function_slots hnode hp
      obtain ⟨proto', hproto', hprototype'⟩ := payload_eq_ok_iff.mp
        (h.keeps.payload (payload_eq_ok_iff.mpr ⟨proto, hproto, hprototype⟩)
          (by simp [Payload.kind]))
      rw [hg.label_function hnode hp hproto hprototype,
        hg'.label_function hnode' hp' hproto' hprototype']
  | collection kind | comprehension kind =>
      rw [hg.node_eq hnode, hg'.node_eq hnode', hpayload, hp]
      split <;> cases kind <;> rfl
  | clause _ _ _ isAsync =>
      rw [hg.node_eq hnode, hg'.node_eq hnode', hpayload, hp]
      split <;> cases isAsync <;> rfl
  | _ =>
      rw [hg.node_eq hnode, hg'.node_eq hnode', hpayload, hp]
      split <;> rfl

/-- An append changes what stands in an export beside the content of no node. -/
theorem Lengthened.exported_eq (hn : tree.Has n) (content : Datum) :
    (g' n).exported .full content = (g n).exported .full content := by
  obtain ⟨node, hnode⟩ := Tree.has_iff.mp hn
  obtain ⟨node', hnode', ⟨htag, hloc, hcomment⟩, hpayload⟩ := h.exists_node hnode
  have hkind : node'.payload.kind = node.payload.kind := by
    rw [hpayload]
    split
    · exact kind_addStatement _ _
    · rfl
  have htype : node'.payload.valueType? = node.payload.valueType? := by
    rw [hpayload]
    split
    · exact Payload.valueType?_addStatement _ _
    · rfl
  have hinfo : (g' n).info.tag = (g n).info.tag := by
    rw [hg.node_eq hnode, hg'.node_eq hnode']
    exact htag
  have hmetadata : (g' n).metadata = (g n).metadata := by
    rw [hg.node_eq hnode, hg'.node_eq hnode', Term.metadata, Term.metadata, Term.kind, Term.kind,
      Term.payload, Term.payload, Payload.kind_map, Payload.kind_map, Payload.valueType?_map,
      Payload.valueType?_map, hkind, htype, Term.info, Term.info, htag, hloc, hcomment]
  rw [Term.exported, Term.exported, h.label_eq hg hg' hn, Term.tagged, Term.tagged]
  simp only [hinfo, hmetadata]

/-- The content of a node without the block in its subtree stays. -/
theorem Lengthened.content_eq_of_not_below (hn : tree.Has n)
    (hbelow : ¬ ReflTransGen tree.ChildOf block n) :
    (g' n).content .full = (g n).content .full := by
  revert hbelow
  refine hg.linked.induction (P := fun n => ¬ ReflTransGen tree.ChildOf block n →
    (g' n).content .full = (g n).content .full) ?_ hn
  intro n hn ih hbelow
  obtain ⟨node, hnode⟩ := Tree.has_iff.mp hn
  obtain ⟨node', hnode', -, hpayload⟩ := h.exists_node hnode
  rw [if_neg fun he : n = block => hbelow (he ▸ ReflTransGen.refl)] at hpayload
  have hchild : ∀ c ∈ node.payload.children, (g' c).content .full = (g c).content .full := by
    intro c hc
    have hup := hg.linked.childOf_of_mem hnode hc
    exact ih c hup fun hblock => hbelow (hblock.tail hup)
  rw [hg.content_eq hnode, hg'.content_eq hnode', hpayload]
  apply Term.contentFrom_congr
  · intro c hc
    rw [hchild c hc, h.exported_eq hg hg' (hg.linked.childOf_of_mem hnode hc).has]
  · exact hchild

/-- The export of a node without the block in its subtree stays. -/
theorem Lengthened.datum_eq_of_not_below (hn : tree.Has n)
    (hbelow : ¬ ReflTransGen tree.ChildOf block n) :
    (g' n).datum .full = (g n).datum .full := by
  rw [Term.datum, Term.datum, h.content_eq_of_not_below hg hg' hn hbelow,
    h.exported_eq hg hg' hn]

/-- The export of the child is added to the content of the block and to every
content that contains it. -/
theorem Lengthened.content_eq
    (hunique : ∀ {n m tag}, tree.TagAt n tag → tree.TagAt m tag → n = m) (hn : tree.Has n) :
    (g' n).content .full =
      (g n).grow (g block).wrapper.key ((g child).datum .full) ((g n).content .full) := by
  refine hg.linked.induction (P := fun n => (g' n).content .full =
    (g n).grow (g block).wrapper.key ((g child).datum .full) ((g n).content .full)) ?_ hn
  intro n hn ih
  obtain ⟨node, hnode⟩ := Tree.has_iff.mp hn
  obtain ⟨node', hnode', -, hpayload⟩ := h.exists_node hnode
  have hchildren : Term.contentFrom .full (node.payload.map fun c => (g' c, (g' c).content .full)) =
      Datum.addItem (g block).wrapper.key ((g child).datum .full) ((g n).content .full) := by
    rw [hg.content_eq hnode, Term.addItem_contentFrom (hg.headed hnode .full), Payload.map_map]
    apply Term.contentFrom_congr
    · intro c hc
      have hup := hg.linked.childOf_of_mem hnode hc
      rw [ih c hup, h.exported_eq hg hg' hup.has]
    · exact fun c hc => ih c (hg.linked.childOf_of_mem hnode hc)
  rw [hg'.content_eq hnode', hpayload, Term.grow]
  by_cases hblock : n = block
  · subst hblock
    have hfree : ¬ ReflTransGen tree.ChildOf n child := by
      intro hup
      rcases reflTransGen_iff_eq_or_transGen.mp hup with he | habove
      · exact h.appendable.ne he
      · exact h.appendable.notAbove (hg.linked.mem_ancestors_iff.mpr habove)
    have hitem : (g' child).exported .full ((g' child).content .full) = (g child).datum .full :=
      h.datum_eq_of_not_below hg hg' h.appendable.free.has hfree
    have hkind := h.block_kind (payload_eq_ok_iff.mpr ⟨node, hnode, rfl⟩)
    have hkey : numberedKey (g n).label (g n).info.tag = (g n).wrapper.key := rfl
    rw [if_pos hkey, if_pos rfl, Term.contentFrom_addStatement hkind, hchildren, hitem]
  · have hkey : numberedKey (g n).label (g n).info.tag ≠ (g block).wrapper.key := by
      intro hkey
      obtain ⟨old, hold⟩ := h.exists_slots
      obtain ⟨tag, htag, htag'⟩ := hg.exists_tag hg hn hold.has hkey
      exact hblock (hunique htag htag')
    rw [if_neg hblock, if_neg hkey, hchildren]

/-- The export of the child is added under the key of the block, wherever it stands. -/
theorem Lengthened.datum_eq
    (hunique : ∀ {n m tag}, tree.TagAt n tag → tree.TagAt m tag → n = m) (hn : tree.Has n) :
    (g' n).datum .full =
      Datum.addItem (g block).wrapper.key ((g child).datum .full) ((g n).datum .full) := by
  calc
    (g' n).datum .full = (g n).exported .full ((g' n).content .full) :=
      h.exported_eq hg hg' hn _
    _ = (g n).exported .full ((g n).grow (g block).wrapper.key ((g child).datum .full)
          ((g n).content .full)) := by rw [h.content_eq hg hg' hunique hn]
    _ = Datum.addItem (g block).wrapper.key ((g child).datum .full) ((g n).datum .full) := rfl

end Lengthened

/-- The full exports of a node before and after a call. Without metadata they are
equal, unless the call adds a statement to a block in the subtree. Then the
export of the statement is added at the end of the list under the block's own
key. -/
inductive Grows (i : Nat) (tree : Tree) (id : NodeId) (full : Datum) :
    Workspace.Action → Workspace.Outcome → Datum → Prop
  | kept {a o full'} : full'.erase = full.erase → Grows i tree id full a o full'
  | added {block child item} {wrapper : Wrapper} : ReflTransGen tree.ChildOf block id →
      tree.toDatum block .full = .ok wrapper.toDatum → tree.toDatum child .full = .ok item →
      Grows i tree id full (.append i block child) .done
        (Datum.addItem wrapper.key item full)

end Tree

namespace Workspace

open TypedSyntax.Tree

variable {i : Nat} {id : NodeId} {tree tree' : Tree} {a : Action} {o : Outcome}

/-- A change of payloads up to statements of blocks. -/
theorem Change.payload_eq (h : Change i tree a o tree') :
    (∃ block child, a = .append i block child ∧ o = .done ∧ tree.Lengthened tree' block child) ∨
      ∀ n p, tree.payload n = .ok p → tree'.payload n = .ok p := by
  cases h with
  | kept hid hnodes =>
      refine Or.inr fun n p hp => ?_
      rwa [Tree.payload, Tree.node, hid, hnodes]
  | grown _ hgrown =>
      refine Or.inr fun n p hp => ?_
      obtain ⟨node, hnode, -⟩ := payload_eq_ok_iff.mp hp
      rwa [hgrown.payload_eq (has_of_node hnode).ne_nextId]
  | lengthened hlong => exact Or.inl ⟨_, _, rfl, rfl, hlong⟩
  | commented hcommented =>
      refine Or.inr fun n p hp => ?_
      rwa [hcommented.payload_eq]

/-- How a call changes the exports of a node. -/
theorem Change.grows (h : Change i tree a o tree') {g g' : NodeId → Term} (hg : tree.Cuts g)
    (hg' : tree'.Cuts g') (hunique : ∀ {n m tag}, tree.TagAt n tag → tree.TagAt m tag → n = m)
    (hid : tree.Has id) (hid' : tree'.Has id) :
    Grows i tree id ((g id).datum .full) a o ((g' id).datum .full) := by
  rcases h.payload_eq with ⟨block, child, rfl, rfl, hlong⟩ | hpayload
  · by_cases hbelow : Relation.ReflTransGen tree.ChildOf block id
    · rw [hlong.datum_eq hg hg' hunique hid]
      obtain ⟨old, hold⟩ := hlong.exists_slots
      exact Grows.added hbelow (hg.toDatum_eq hold.has .full)
        (hg.toDatum_eq hlong.appendable.free.has .full)
    · apply Grows.kept
      rw [hlong.datum_eq_of_not_below hg hg' hid hbelow]
  · apply Grows.kept
    rw [hg.erase_datum hid, hg'.erase_datum hid']
    symm
    apply hg.datum_simplified_eq hg' (f := fun n => n) _ hid
    intro n p hp
    rw [Payload.map_id]
    exact hpayload n p hp

/-- The id that a constructor returns names a node of its own tree and of no
other. In every later run this node persists, and a call changes its exports
only by adding a statement to a block in its subtree. -/
theorem handle_run (before mid later : List Action) (i : Nat) (draft : Draft) (id : NodeId)
    (hbuilt : ((run before).perform (.build i draft)).1 = .built id) :
    let w := run (before ++ .build i draft :: mid)
    let w' := run (before ++ .build i draft :: mid ++ later)
    (∀ j ≠ i, (w.tree j).node id = .error .foreign) ∧
      (∃ old new, (w.tree i).node id = .ok old ∧ (w'.tree i).node id = .ok new ∧
        old.Persists (appendedTo i id w later) new) ∧
      ∀ a, let step := w.perform a
        ∃ full full', (w.tree i).toDatum id .full = .ok full ∧
          (w.tree i).toDatum id .simplified = .ok full.erase ∧
          (step.2.tree i).toDatum id .full = .ok full' ∧
          (step.2.tree i).toDatum id .simplified = .ok full'.erase ∧
          Grows i (w.tree i) id full a step.1 full' := by
  intro w w'
  have hsplit : before ++ .build i draft :: mid = before ++ [.build i draft] ++ mid := by simp
  obtain ⟨first, hfirst⟩ := Tree.has_iff.mp (has_of_built hbuilt)
  obtain ⟨old, hold, -⟩ := persists_run_append (before ++ [.build i draft]) mid hfirst
  rw [← hsplit] at hold
  have hid : (w.tree i).Has id := has_of_node hold
  refine ⟨?_, ?_, ?_⟩
  · intro j hj
    apply node_eq_foreign
    rw [hid.1, id_run, id_run]
    exact Ne.symm hj
  · obtain ⟨new, hnew, hpersists⟩ := persists_run_append _ later hold
    exact ⟨old, new, hold, hnew, hpersists⟩
  · intro a step
    have hstep : step.2 = run (before ++ .build i draft :: mid ++ [a]) := (run_concat _ a).symm
    obtain ⟨g, hg⟩ : ∃ g, (w.tree i).Cuts g := cuts_run _ i
    obtain ⟨g', hg'⟩ : ∃ g', (step.2.tree i).Cuts g' := hstep ▸ cuts_run _ i
    have hchange : Change i (w.tree i) a step.1 (step.2.tree i) := by
      rw [hstep]
      exact change_run _ a i
    obtain ⟨new, hnew, -⟩ := hchange.persists hold
    have hid' := has_of_node hnew
    refine ⟨_, _, hg.toDatum_eq hid .full, ?_, hg'.toDatum_eq hid' .full, ?_, ?_⟩
    · rw [hg.erase_datum hid]
      exact hg.toDatum_eq hid .simplified
    · rw [hg'.erase_datum hid']
      exact hg'.toDatum_eq hid' .simplified
    · exact hchange.grows hg hg'
        (fun htag htag' => ((tagged_run _).unique htag htag').2) hid hid'

/-- Calls that build two statements in the first of two trees. -/
def twoStatements : List Action :=
  [.build 0 .breaking, .build 0 .continuing]

/-- Calls that append both statements to the first node, the last one first. -/
def appendBoth : List Action :=
  [.append 0 ⟨0, 0⟩ ⟨0, 2⟩, .append 1 ⟨0, 0⟩ ⟨0, 1⟩, .append 0 ⟨0, 0⟩ ⟨0, 1⟩]

/-- The statement that is appended to a block is shown in it, and the block is unknown
to the other tree. -/
theorem handle_block :
    let w := run ([.newTree, .newTree] ++ .build 0 (.block "body" []) :: twoStatements)
    let w' :=
      run ([.newTree, .newTree] ++ .build 0 (.block "body" []) :: twoStatements ++ appendBoth)
    let step := w.perform (.append 0 ⟨0, 0⟩ ⟨0, 2⟩)
    ((run [.newTree, .newTree]).perform (.build 0 (.block "body" []))).1 = .built ⟨0, 0⟩ ∧
      (w.tree 1).node ⟨0, 0⟩ = .error .foreign ∧
      (∃ old new, (w.tree 0).node ⟨0, 0⟩ = .ok old ∧ (w'.tree 0).node ⟨0, 0⟩ = .ok new ∧
        old.Persists [⟨0, 2⟩, ⟨0, 1⟩] new) ∧
      step.1 = .done ∧
      (step.2.tree 0).toDatum ⟨0, 0⟩ .simplified =
        .ok (.single "BLOCK[body]" (.list [.single "CONTINUE" .empty])) ∧
      ∃ full full', (w.tree 0).toDatum ⟨0, 0⟩ .full = .ok full ∧
        (step.2.tree 0).toDatum ⟨0, 0⟩ .full = .ok full' ∧
        Grows 0 (w.tree 0) ⟨0, 0⟩ full (.append 0 ⟨0, 0⟩ ⟨0, 2⟩) step.1 full' := by
  intro w w' step
  have hbuilt : ((run [.newTree, .newTree]).perform (.build 0 (.block "body" []))).1 =
      .built ⟨0, 0⟩ := rfl
  obtain ⟨hforeign, hpersists, hgrows⟩ :=
    handle_run [.newTree, .newTree] twoStatements appendBoth 0 (.block "body" []) ⟨0, 0⟩ hbuilt
  obtain ⟨full, full', hfull, -, hfull', -, hgrows⟩ := hgrows (.append 0 ⟨0, 0⟩ ⟨0, 2⟩)
  exact ⟨hbuilt, hforeign 1 (by decide), hpersists, rfl, rfl, full, full', hfull, hfull', hgrows⟩

end Workspace

end TypedSyntax
