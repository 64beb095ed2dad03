import TypedSyntax.Proofs.Datum
import TypedSyntax.Proofs.Export.Assembly
import TypedSyntax.Proofs.Python.Steady

/-!
# Modules of equal structure

Modules with the same simplified export have the same text. Besides what the
export shows, a text shows comments and which functions are methods. Comments
are excluded, and the place of a function below a module, which no node holds,
is known from the export.
-/

namespace TypedSyntax

/-- Payloads that agree when their references are replaced by one function agree
for every other function that sees no more. -/
theorem Payload.map_eq_of_map_eq {α β γ : Type} [Nonempty γ] {g : α → β} {f : α → γ}
    {p p' : Payload α} (h : p.map g = p'.map g)
    (hf : ∀ c ∈ p.children, ∀ c' ∈ p.children ++ p'.children, g c = g c' → f c = f c') :
    p.map f = p'.map f := by
  classical
  have hchild : ∀ c' ∈ p.children ++ p'.children, ∃ c ∈ p.children, g c = g c' := by
    intro c' hc'
    rcases List.mem_append.mp hc' with hc' | hc'
    · exact ⟨c', hc', rfl⟩
    · have hmem : g c' ∈ (p.map g).children := by
        rw [h, children_map]
        exact List.mem_map_of_mem hc'
      rw [children_map] at hmem
      exact List.mem_map.mp hmem
  let through : β → γ := fun b =>
    if hb : ∃ c ∈ p.children, g c = b then f hb.choose else Classical.arbitrary γ
  have hthrough : ∀ c' ∈ p.children ++ p'.children, through (g c') = f c' := by
    intro c' hc'
    have hb := hchild c' hc'
    rw [show through (g c') = f hb.choose from dif_pos hb]
    exact hf _ hb.choose_spec.1 c' hc' hb.choose_spec.2
  calc
    p.map f = p.map fun c => through (g c) :=
      map_congr fun c hc => (hthrough c (List.mem_append_left _ hc)).symm
    _ = (p.map g).map through := (map_map through g p).symm
    _ = (p'.map g).map through := by rw [h]
    _ = p'.map fun c => through (g c) := map_map through g p'
    _ = p'.map f := map_congr fun c hc => hthrough c (List.mem_append_right _ hc)

namespace Term

/-- A term without comments whose nodes can be read back from their exports. The
flags say whether the parent of the term is a class definition, and whether the
parent of the parent is. -/
inductive Regular : Bool → Bool → Term → Prop
  | node {inClass isMethod info p} : info.comment = "" → info.isMethod = isMethod → p.Readable →
      (∀ c ∈ p.children, Regular (decide (p.kind = .classDef)) inClass c) →
      Regular inClass isMethod (.node info p)

/-- Regular terms in the same place with the same simplified export have the same
normal form. -/
theorem Regular.normal_eq {inClass isMethod : Bool} {t t' : Term} (ht : Regular inClass isMethod t)
    (ht' : Regular inClass isMethod t')
    (h : t.datum .simplified = t'.datum .simplified) :
    t.normal TermInfo.shown = t'.normal TermInfo.shown := by
  induction t using induction generalizing inClass isMethod t' with
  | node info p ih =>
    cases ht with
    | node hcomment hmethod hreadable hchildren =>
      cases ht' with
      | @node _ _ info' p' hcomment' hmethod' hreadable' hchildren' =>
        have hsame := canonical_eq_of_datum_eq hreadable hreadable' h
        have hkind : p.kind = p'.kind := by
          have hkinds := congrArg Payload.kind hsame
          rwa [Payload.kind_map, Payload.kind_map, Payload.kind_canonical,
            Payload.kind_canonical] at hkinds
        have hinfo : info.shown = info'.shown := by
          rw [TermInfo.shown, TermInfo.shown, hcomment, hcomment', hmethod, hmethod']
        have hnormal : p.canonical.map (normal TermInfo.shown) =
            p'.canonical.map (normal TermInfo.shown) := by
          have : Nonempty Term := ⟨.node info p⟩
          apply Payload.map_eq_of_map_eq hsame
          rw [Payload.children_canonical, Payload.children_canonical]
          intro c hc c' hc' hdatum
          rcases List.mem_append.mp hc' with hc' | hc'
          · exact ih c hc (hchildren c hc) (hchildren c' hc') hdatum
          · exact ih c hc (hchildren c hc) (hkind ▸ hchildren' c' hc') hdatum
        rw [normal_node, normal_node, Payload.canonical_map, Payload.canonical_map, hinfo, hnormal]

end Term

namespace Tree

open Relation

variable {tree : Tree} {id : NodeId}

/-- Whether the parent of a node is a class definition. -/
def isMember (tree : Tree) (node : Node) : Bool :=
  match node.parent with
  | none => false
  | some p => decide (tree.kind p = .ok .classDef)

theorem isMember_of_parent {p : NodeId} {node child : Node} (hnode : tree.node p = .ok node)
    (hparent : child.parent = some p) :
    tree.isMember child = decide (node.payload.kind = .classDef) := by
  simp [isMember, hparent, kind, hnode, Except.map, Node.kind]

/-- The head of a function is that of a method if the function is a member of a class. -/
theorem isMethodHead_of_parent {p : NodeId} {node child : Node} (hnode : tree.node p = .ok node)
    (hparent : child.parent = some p) : tree.isMethodHead child = tree.isMember node := by
  rw [isMethodHead, isMember, hparent]
  simp only [Option.bind_some, parent, hnode, Except.map, Except.toOption, Option.join_some]
  cases node.parent with
  | none => rfl
  | some q =>
      cases h : tree.kind q <;> simp [h]

/-- A text shows nothing of the subtree that its export does not show: there are no
comments, and no class has a name that ends like the tag of an abstract class. -/
structure Exposed (tree : Tree) (id : NodeId) : Prop where
  comment_eq : ∀ n node, ReflTransGen tree.ChildOf n id → tree.node n = .ok node →
    node.comment = ""
  distinct : ∀ n p, ReflTransGen tree.ChildOf n id → tree.payload n = .ok p → p.Distinct

variable {g : NodeId → Term}

/-- The payload of a node is readable when its children are replaced by their
terms. -/
theorem Cuts.readable {node : Node} (hg : tree.Cuts g) (hnode : tree.node id = .ok node)
    (htyped : node.payload.Typed) (hdistinct : node.payload.Distinct) :
    (node.payload.map g).Readable where
  headed := hg.headed_map hnode
  typed := Payload.typed_map htyped
  distinct := Payload.distinct_map hdistinct

/-- The term of an exposed node is regular. -/
theorem Cuts.regular (hg : tree.Cuts g) (htyped : ∀ n p, tree.payload n = .ok p → p.Typed)
    (hid : tree.Has id) (hexposed : tree.Exposed id) :
    ∀ node, tree.node id = .ok node →
      Term.Regular (tree.isMember node) (tree.isMethodHead node) (g id) := by
  revert hexposed
  refine hg.linked.induction (P := fun id => tree.Exposed id → ∀ node, tree.node id = .ok node →
    Term.Regular (tree.isMember node) (tree.isMethodHead node) (g id)) ?_ hid
  intro id hid ih hexposed node hnode
  have hpayload := payload_eq_ok_iff.mpr ⟨node, hnode, rfl⟩
  rw [hg.node_eq hnode]
  apply Term.Regular.node
  · exact hexposed.comment_eq id node ReflTransGen.refl hnode
  · rfl
  · have hdistinct := hexposed.distinct id _ ReflTransGen.refl hpayload
    exact hg.readable hnode (htyped id _ hpayload) hdistinct
  · intro t ht
    rw [Payload.children_map] at ht
    obtain ⟨c, hc, rfl⟩ := List.mem_map.mp ht
    have hchild := hg.linked.childOf_of_mem hnode hc
    obtain ⟨child, hchildNode, hparent⟩ := childOf_iff.mp hchild
    have hbelow : tree.Exposed c :=
      ⟨fun n node hn => hexposed.comment_eq n node (hn.tail hchild),
        fun n p hn => hexposed.distinct n p (hn.tail hchild)⟩
    have hregular := ih c hchild hbelow child hchildNode
    rwa [isMember_of_parent hnode hparent, isMethodHead_of_parent hnode hparent,
      ← Payload.kind_map g] at hregular

/-- Nothing above a module matters to its term. -/
theorem Cuts.regular_module (hg : tree.Cuts g)
    (htyped : ∀ n p, tree.payload n = .ok p → p.Typed) (hid : tree.HasKind .module id)
    (hexposed : tree.Exposed id) : Term.Regular false false (g id) := by
  obtain ⟨node, hnode, -⟩ := map_eq_ok_iff.mp hid
  have hroot : node.parent = none := by
    cases hp : node.parent with
    | none => rfl
    | some p =>
        exact (Sound.not_childOf_module ⟨hg.linked, hg.wellFormed⟩ hid
          (childOf_iff.mpr ⟨node, hnode, hp⟩)).elim
  have hregular := hg.regular htyped (has_of_node hnode) hexposed node hnode
  rwa [isMember, isMethodHead, hroot] at hregular

/-- Modules of trees after any runs that have the same structure have the same
text, whatever the writers rendered before. -/
theorem render_eq_of_structureEq (actions others : List Workspace.Action) (i j : Nat)
    (id id' : NodeId) (writer writer' : Python.Writer)
    (hid : ((Workspace.run actions).tree i).HasKind .module id)
    (hid' : ((Workspace.run others).tree j).HasKind .module id')
    (hexposed : ((Workspace.run actions).tree i).Exposed id)
    (hexposed' : ((Workspace.run others).tree j).Exposed id')
    (h : ((Workspace.run actions).tree i).structureEq id ((Workspace.run others).tree j) id' =
      .ok true)
    (hoptions : writer.options = writer'.options) :
    ∃ s, (writer.render ((Workspace.run actions).tree i) id).1 = .ok s ∧
      (writer'.render ((Workspace.run others).tree j) id').1 = .ok s := by
  obtain ⟨g, hg⟩ := cuts_run actions i
  obtain ⟨g', hg'⟩ := cuts_run others j
  obtain ⟨node, hnode, -⟩ := map_eq_ok_iff.mp hid
  obtain ⟨node', hnode', -⟩ := map_eq_ok_iff.mp hid'
  have hregular : Term.Regular false false (g id) :=
    hg.regular_module (fun n p hp => typed_run actions i hp) hid hexposed
  have hregular' : Term.Regular false false (g' id') :=
    hg'.regular_module (fun n p hp => typed_run others j hp) hid' hexposed'
  rw [structureEq, hg.toDatum_eq (has_of_node hnode), hg'.toDatum_eq (has_of_node hnode')] at h
  have hdatum := Datum.structureEq_iff.mp (Except.ok.inj h)
  exact Python.Writer.render_eq hoptions (hg.term_eq hnode) (hg'.term_eq hnode')
    (hregular.normal_eq hregular' hdatum)

/-- It is enough to look at all nodes of the tree. -/
theorem exposed_of_forall
    (h : ∀ node ∈ tree.nodes, node.comment = "" ∧ node.payload.Distinct) : tree.Exposed id := by
  have hmem : ∀ {n node}, tree.node n = .ok node → node ∈ tree.nodes :=
    fun hnode => Array.mem_of_getElem? (node_eq_ok_iff.mp hnode).2
  constructor
  · exact fun n node _ hnode => (h node (hmem hnode)).1
  · intro n p _ hp
    obtain ⟨node, hnode, rfl⟩ := payload_eq_ok_iff.mp hp
    exact (h node (hmem hnode)).2

/-- A run that builds a module with a class. -/
def moduleWithClass : List Workspace.Action :=
  [.newTree,
    .build 0 (.argument ⟨"x", .int true .w32, .constant⟩ none),
    .build 0 (.prototype ⟨"m", .any, .global, .public, .constant⟩ [⟨0, 0⟩]),
    .build 0 (.block "body" []),
    .build 0 (.function ⟨0, 1⟩ ⟨0, 2⟩),
    .build 0 (.classDef ⟨"C", false, .public⟩ [] [] [] [⟨0, 3⟩]),
    .build 0 (.module "main" [⟨0, 4⟩])]

/-- A run that builds it in another tree, in another order, elsewhere in the source,
and with other modifiers. -/
def moduleWithClass' : List Workspace.Action :=
  [.newTree, .newTree, .build 0 .breaking, .atLocation 1 ⟨2, 5⟩,
    .build 1 (.block "body" []),
    .build 1 (.argument ⟨"x", .int true .w32, .mutable⟩ none),
    .build 1 (.prototype ⟨"m", .any, .local, .private, .mutable⟩ [⟨1, 1⟩]),
    .build 1 (.function ⟨1, 2⟩ ⟨1, 0⟩),
    .build 1 (.classDef ⟨"C", false, .public⟩ [] [] [] [⟨1, 3⟩]),
    .build 1 (.module "main" []),
    .append 1 ⟨1, 5⟩ ⟨1, 4⟩]

/-- Two trees built in different ways have the same structure and the same text. -/
theorem render_eq_moduleWithClass :
    let tree := (Workspace.run moduleWithClass).tree 0
    let tree' := (Workspace.run moduleWithClass').tree 1
    let writer := Python.Writer.new .default
    tree.HasKind .module ⟨0, 5⟩ ∧ tree'.HasKind .module ⟨1, 5⟩ ∧
      tree.Exposed ⟨0, 5⟩ ∧ tree'.Exposed ⟨1, 5⟩ ∧
      tree.structureEq ⟨0, 5⟩ tree' ⟨1, 5⟩ = .ok true ∧
      ∃ s, (writer.render tree ⟨0, 5⟩).1 = .ok s ∧ (writer.render tree' ⟨1, 5⟩).1 = .ok s := by
  intro tree tree' writer
  have hexposed : tree.Exposed ⟨0, 5⟩ := exposed_of_forall (by decide +kernel)
  have hexposed' : tree'.Exposed ⟨1, 5⟩ := exposed_of_forall (by decide +kernel)
  have hstructure : tree.structureEq ⟨0, 5⟩ tree' ⟨1, 5⟩ = .ok true := by decide +kernel
  exact ⟨rfl, rfl, hexposed, hexposed', hstructure,
    render_eq_of_structureEq moduleWithClass moduleWithClass' 0 1 ⟨0, 5⟩ ⟨1, 5⟩ writer writer
      rfl rfl hexposed hexposed' hstructure rfl⟩

end Tree

end TypedSyntax
