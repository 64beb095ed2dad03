import TypedSyntax.Proofs.Python.Steady

/-!
# Texts without annotations

If annotations are off, a text shows neither the types that variables, arguments and
results are declared with nor those that expressions were found to have. The types of
literals and the targets of casts are all that is left of types in it.
-/

namespace TypedSyntax

namespace Payload

variable {α β : Type}

/-- The payload without the types that are declared or computed. -/
def untyped : Payload α → Payload α
  | .collection kind elements _ => .collection kind elements .any
  | .mapping entries _ => .mapping entries .any
  | .variable name _ => .variable name .any
  | .declaration declared value => .declaration { declared with type := .any } value
  | .unary op operand _ => .unary op operand .any
  | .binary op lhs rhs _ => .binary op lhs rhs .any
  | .argument parameter default => .argument { parameter with type := .any } default
  | .prototype signature arguments => .prototype { signature with returnType := .any } arguments
  | .call callee arguments _ => .call callee arguments .any
  | .comprehension kind element generators _ => .comprehension kind element generators .any
  | other => other

@[simp] theorem kind_untyped (p : Payload α) : p.untyped.kind = p.kind := by
  cases p <;> rfl

@[simp] theorem children_untyped (p : Payload α) : p.untyped.children = p.children := by
  cases p <;> rfl

theorem untyped_map (f : α → β) (p : Payload α) : (p.map f).untyped = p.untyped.map f := by
  cases p <;> rfl

end Payload

namespace Term

/-- The term without types, ids and locations. -/
def untyped : Term → Term :=
  fold fun info payload => .node info.shown (payload.map (·.2)).untyped

theorem untyped_node (info : TermInfo) (p : Payload Term) :
    untyped (.node info p) = .node info.shown (p.map untyped).untyped := by
  rw [untyped, fold_node, Payload.map_map]

/-- Taking away types rebuilds a term from its children. -/
theorem rebuilds_untyped : Rebuilds untyped TermInfo.shown Payload.untyped :=
  ⟨untyped_node, Payload.untyped_map, Payload.kind_untyped, Payload.children_untyped⟩

end Term

namespace Python

variable {options : PythonOptions}

/-- Without hints no type is annotated. -/
theorem annotation_eq_none (hoff : options.typeHints = false) (type : DataType) :
    annotate options type = pure none := by
  unfold annotate
  rw [hoff]
  rfl

/-- Only annotations show the types that the payload of a node is given. -/
theorem nodeText_untyped (hoff : options.typeHints = false) (info : TermInfo) (p : Payload Part) :
    nodeText options info p.untyped = nodeText options info p := by
  cases p with
  | declaration | argument | prototype =>
      simp only [Payload.untyped, nodeText, writeDeclaration, writeArgument, writePrototype,
        annotation_eq_none hoff]
  | _ => rfl

theorem preserves_untyped : Preserves Term.untyped :=
  preserves_of_rebuilds Term.rebuilds_untyped (fun _ => rfl) (fun _ _ => rfl)
    fun _ p _ => by cases p <;> rfl

/-- Without hints a text does not show types. -/
theorem text_untyped (hoff : options.typeHints = false) (t : Term) :
    text options t.untyped = text options t := by
  apply Term.rebuilds_untyped.fold_eq
  intro info p
  have hmethod : info.shown.isMethod = info.isMethod := rfl
  rw [nodeText_map preserves_untyped hmethod, nodeText_untyped hoff]

end Python

namespace Tree

variable {tree tree' : Tree} {f : NodeId → NodeId} {n : NodeId} {node node' : Node}
  {g g' : NodeId → Term}

/-- The second tree has the nodes of the first under other names and with other declared
and computed types. -/
structure Retyped (tree tree' : Tree) (f : NodeId → NodeId) : Prop where
  node_eq : ∀ {n node}, tree.node n = .ok node → ∃ node', tree'.node (f n) = .ok node' ∧
    node'.payload.untyped = node.payload.untyped.map f ∧
    node'.comment = node.comment ∧ node'.parent = node.parent.map f

section Retyped

variable (h : tree.Retyped tree' f)
include h

theorem Retyped.kind_eq (hn : tree.Has n) : tree'.kind (f n) = tree.kind n := by
  obtain ⟨node, hnode⟩ := has_iff.mp hn
  obtain ⟨node', hnode', hpayload, -⟩ := h.node_eq hnode
  have hkind := congrArg Payload.kind hpayload
  rw [Payload.kind_map, Payload.kind_untyped, Payload.kind_untyped] at hkind
  simp only [kind, hnode, hnode', Except.map, Node.kind, hkind]

theorem Retyped.parent_eq (hn : tree.Has n) :
    tree'.parent (f n) = (tree.parent n).map (Option.map f) := by
  obtain ⟨node, hnode⟩ := has_iff.mp hn
  obtain ⟨node', hnode', -, -, hparent⟩ := h.node_eq hnode
  simp only [parent, hnode, hnode', Except.map, hparent]

/-- Nodes under corresponding names have the same payload up to types. -/
theorem Retyped.payload_eq {p : Payload NodeId} (hp : tree.payload n = .ok p) :
    ∃ p', tree'.payload (f n) = .ok p' ∧ p'.untyped = p.untyped.map f := by
  obtain ⟨node, hnode, rfl⟩ := payload_eq_ok_iff.mp hp
  obtain ⟨node', hnode', hpayload, -⟩ := h.node_eq hnode
  exact ⟨_, payload_eq_ok_iff.mpr ⟨node', hnode', rfl⟩, hpayload⟩

/-- Without types the terms of a node in both trees are the same. -/
theorem Retyped.untyped_eq (hg : tree.Cuts g) (hg' : tree'.Cuts g') (hn : tree.Has n) :
    (g n).untyped = (g' (f n)).untyped := by
  apply Cuts.rebuilt_eq Term.rebuilds_untyped hg hg' (fun n p hp => h.payload_eq hp) hn
  intro m hm
  obtain ⟨node, hnode⟩ := has_iff.mp (has_below hn hm)
  obtain ⟨node', hnode', -, hcomment, -⟩ := h.node_eq hnode
  rw [hg.node_eq hnode, hg'.node_eq hnode', Term.info, Term.info, TermInfo.shown, TermInfo.shown,
    hcomment, hg.linked.isMethodHead_congr h.kind_eq h.parent_eq hnode hnode']

end Retyped

/-- Trees of any runs that differ only in declared and computed types have the same texts
without annotations, at every node and for every indentation, whatever the writers
rendered before. -/
theorem render_eq_of_retyped (actions others : List Workspace.Action) (i j : Nat)
    (f : NodeId → NodeId)
    (h : ((Workspace.run actions).tree i).Retyped ((Workspace.run others).tree j) f)
    (writer writer' : Python.Writer) (hoptions : writer.options = writer'.options)
    (hoff : writer.options.typeHints = false) :
    ∀ n, ((Workspace.run actions).tree i).Has n →
      ∃ s, (writer.render ((Workspace.run actions).tree i) n).1 = .ok s ∧
        (writer'.render ((Workspace.run others).tree j) (f n)).1 = .ok s := by
  intro n hn
  obtain ⟨g, hg⟩ := cuts_run actions i
  obtain ⟨g', hg'⟩ := cuts_run others j
  obtain ⟨node, hnode⟩ := has_iff.mp hn
  obtain ⟨node', hnode', -⟩ := h.node_eq hnode
  have huntyped := h.untyped_eq hg hg' hn
  have hkind : (g n).kind = (g' (f n)).kind := by
    rw [← Term.rebuilds_untyped.kind_eq, huntyped, Term.rebuilds_untyped.kind_eq]
  have htext : Python.text writer.options (g n) = Python.text writer.options (g' (f n)) := by
    rw [← Python.text_untyped hoff, huntyped, Python.text_untyped hoff]
  exact Python.Writer.render_eq_of_text hoptions (hg.term_eq hnode) (hg'.term_eq hnode') hkind
    htext

/-- A run that builds, in one of two trees, a module with a declaration and a function of
some type. -/
def moduleOfType (i : Nat) (type : DataType) : List Workspace.Action :=
  [.newTree, .newTree,
    .build i (.declaration ⟨"d", type, .mutable, .public, .global⟩ none),
    .build i (.argument ⟨"x", type, .constant⟩ none),
    .build i (.prototype ⟨"f", type, .global, .public, .constant⟩ [⟨i, 1⟩]),
    .build i (.variable "x" type),
    .build i (.returning (some ⟨i, 3⟩)),
    .build i (.block "body" [⟨i, 4⟩]),
    .build i (.function ⟨i, 2⟩ ⟨i, 5⟩),
    .build i (.module "main" [⟨i, 0⟩, ⟨i, 6⟩])]

/-- Trees whose nodes, in the order in which they were built, differ in types only. -/
theorem retyped_of_nodes (h : tree'.nodes.toList.map
      (fun node => (node.payload.untyped, node.comment, node.parent)) =
    tree.nodes.toList.map fun node =>
      (node.payload.untyped.map fun n => ⟨tree'.id, n.index⟩, node.comment,
        node.parent.map fun n => ⟨tree'.id, n.index⟩)) :
    tree.Retyped tree' fun n => ⟨tree'.id, n.index⟩ := by
  constructor
  intro n node hnode
  have hentry := congrArg (·[n.index]?) h
  simp only [List.getElem?_map, Array.getElem?_toList, (node_eq_ok_iff.mp hnode).2,
    Option.map_some, Option.map_eq_some_iff, Prod.mk.injEq] at hentry
  obtain ⟨node', hnode', hpayload, hcomment, hparent⟩ := hentry
  exact ⟨node', node_eq_ok_iff.mpr ⟨rfl, hnode'⟩, hpayload, hcomment, hparent⟩

/-- The same calls with two types build trees that differ in types only. -/
theorem retyped_moduleOfType : ((Workspace.run (moduleOfType 0 .date)).tree 0).Retyped
    ((Workspace.run (moduleOfType 1 .string)).tree 1) fun n => ⟨1, n.index⟩ :=
  retyped_of_nodes (by decide +kernel)

/-- Both modules have the same text. -/
theorem render_eq_moduleOfType :
    let tree := (Workspace.run (moduleOfType 0 .date)).tree 0
    let tree' := (Workspace.run (moduleOfType 1 .string)).tree 1
    let writer := Python.Writer.new ⟨2, false⟩
    tree.Retyped tree' (fun n => ⟨1, n.index⟩) ∧ tree.Has ⟨0, 7⟩ ∧
      ∃ s, (writer.render tree ⟨0, 7⟩).1 = .ok s ∧ (writer.render tree' ⟨1, 7⟩).1 = .ok s := by
  intro tree tree' writer
  have hid : tree.Has ⟨0, 7⟩ := ⟨rfl, by decide⟩
  exact ⟨retyped_moduleOfType, hid,
    render_eq_of_retyped (moduleOfType 0 .date) (moduleOfType 1 .string) 0 1
      (fun n => ⟨1, n.index⟩) retyped_moduleOfType writer writer rfl rfl ⟨0, 7⟩ hid⟩

/-- With annotations the types show, as does the import that a date needs. -/
example : (Python.emit ((Workspace.run (moduleOfType 0 .date)).tree 0) ⟨0, 0⟩,
    Python.emit ((Workspace.run (moduleOfType 1 .string)).tree 1) ⟨1, 0⟩) =
      (.ok "d: datetime.date", .ok "d: str") := by
  decide +kernel

end Tree

end TypedSyntax
