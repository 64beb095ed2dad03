import TypedSyntax.Proofs.Python.Rendering
import TypedSyntax.Proofs.Python.Tight
import TypedSyntax.Proofs.Tree.Sound
import TypedSyntax.Proofs.Tree.Terms

/-!
# Precedence in rendered expressions

After every run, an expression with plain names is rendered. Its text gives the
operators and operands back exactly when every operand that is written without
parentheses binds as tightly as its place asks. An operand may fail to: a
negative number below a power, and an operation below a cast without a
constructor.
-/

namespace TypedSyntax.Python

variable {tree : Tree} {id : NodeId}

/-- The nodes whose terms are phrases. -/
def Phrase.Below (tree : Tree) : Phrase → NodeId → Prop
  | .expression, id => tree.IsExpression id
  | .clause, id => tree.HasKind .clause id

/-- The payloads of phrases. -/
def Phrase.Holds : Phrase → Payload NodeId → Prop
  | .expression, p => p.valueType?.isSome = true
  | .clause, p => p.kind = .clause

/-- The nodes of phrases have the payloads of phrases. -/
theorem Phrase.Below.exists_node {phrase : Phrase} (h : phrase.Below tree id) :
    ∃ node, tree.node id = .ok node ∧ phrase.Holds node.payload := by
  cases phrase with
  | expression =>
      obtain ⟨type, htype⟩ := h
      obtain ⟨node, hnode, hvalue⟩ := map_eq_ok_iff.mp htype
      exact ⟨node, hnode, Option.isSome_iff_exists.mpr ⟨type, hvalue⟩⟩
  | clause => exact map_eq_ok_iff.mp h

/-- A function from nodes to their terms. -/
def TermsOf (tree : Tree) (g : NodeId → Term) : Prop :=
  ∀ id node, tree.node id = .ok node →
    g id = .node ⟨id, node.tag, node.loc, node.comment, tree.isMethodHead node⟩ (node.payload.map g)

/-- The target of a clause has a name. -/
theorem TermsOf.exists_boundName {g : NodeId → Term} (hg : TermsOf tree g) {element : DataType}
    (h : tree.IsTarget element id) : ∃ name, boundName? (g id) = some name := by
  cases h with
  | «variable» hp | declaration hp =>
      obtain ⟨⟨_, _, _, _, p⟩, hnode, hpayload⟩ := Tree.payload_eq_ok_iff.mp hp
      subst hpayload
      rw [hg id _ hnode]
      exact ⟨_, rfl⟩

theorem forall_isExpression {cs : List NodeId} {types : List DataType}
    (h : List.Forall₂ tree.HasType cs types) : ∀ c ∈ cs, tree.IsExpression c := by
  induction h with
  | nil => exact List.forall_mem_nil _
  | cons hc _ ih => exact List.forall_mem_cons.mpr ⟨⟨_, hc⟩, ih⟩

/-- The names of a term are plain. -/
def PlainNames (t : Term) : Prop :=
  ∀ name ∈ names t, isPlain name = true

instance (t : Term) : Decidable (PlainNames t) :=
  List.decidableBAll _ _

/-- The names of a child are among those of the node. -/
theorem PlainNames.child {info : TermInfo} {p : Payload Term} (h : PlainNames (.node info p))
    {c : Term} (hc : c ∈ p.children)
    (hsub : (p.map fun t => (t, names t)).children.flatMap (·.2) ⊆
      nodeNames (p.map fun t => (t, names t))) : PlainNames c := by
  intro name hname
  have hpart : (c, names c) ∈ (p.map fun t => (t, names t)).children := by
    rw [Payload.children_map]
    exact List.mem_map_of_mem hc
  apply h name
  rw [names_node]
  apply hsub
  exact List.mem_flatMap.mpr ⟨(c, names c), hpart, hname⟩

/-- The children that are phrases are plain if their names are. -/
def PlainBelow (tree : Tree) (g : NodeId → Term) (p : Payload NodeId) : Prop :=
  ∀ c ∈ p.children, ∀ phrase : Phrase, phrase.Below tree c → PlainNames (g c) → Plain phrase (g c)

namespace PlainBelow

variable {g : NodeId → Term} {info : TermInfo}

/-- Where a node shows the names of all of its children, these are plain as its names
are. -/
theorem child {p : Payload NodeId} (ih : PlainBelow tree g p)
    (hnames : PlainNames (.node info (p.map g)))
    (hsub : ((p.map g).map fun t => (t, names t)).children.flatMap (·.2) ⊆
      nodeNames ((p.map g).map fun t => (t, names t)))
    {c : NodeId} (hc : c ∈ p.children) {phrase : Phrase} (hphrase : phrase.Below tree c) :
    Plain phrase (g c) := by
  have hterm : g c ∈ (p.map g).children := by
    rw [Payload.children_map]
    exact List.mem_map_of_mem hc
  exact ih c hc phrase hphrase (hnames.child hterm hsub)

theorem collection {kind : CollectionKind} {elements : List NodeId} {type : DataType}
    {types : List DataType} (ih : PlainBelow tree g (.collection kind elements type))
    (hnames : PlainNames (.node info ((Payload.collection kind elements type).map g)))
    (htypes : List.Forall₂ tree.HasType elements types) :
    Plain .expression (.node info ((Payload.collection kind elements type).map g)) := by
  apply Plain.collection
  rw [List.forall_mem_map]
  intro c hc
  exact ih.child hnames (List.Subset.refl _) hc (forall_isExpression htypes c hc)

theorem mapping {entries : List (NodeId × NodeId)} {type : DataType} {keys values : List DataType}
    (ih : PlainBelow tree g (.mapping entries type))
    (hnames : PlainNames (.node info ((Payload.mapping entries type).map g)))
    (hkeys : List.Forall₂ tree.HasType (entries.map Prod.fst) keys)
    (hvalues : List.Forall₂ tree.HasType (entries.map Prod.snd) values) :
    Plain .expression (.node info ((Payload.mapping entries type).map g)) := by
  have hkey := forall_isExpression hkeys
  have hvalue := forall_isExpression hvalues
  rw [List.forall_mem_map] at hkey hvalue
  have hchild : ∀ entry ∈ entries, ∀ c ∈ [entry.1, entry.2], tree.IsExpression c →
      Plain .expression (g c) := by
    intro entry hentry c hc hexpression
    have hmem : c ∈ (Payload.mapping entries type).children :=
      List.mem_flatMap.mpr ⟨entry, hentry, hc⟩
    exact ih.child hnames (List.Subset.refl _) hmem hexpression
  apply Plain.mapping
  · rw [List.forall_mem_map]
    intro entry hentry
    exact hchild entry hentry entry.1 List.mem_cons_self (hkey entry hentry)
  · rw [List.forall_mem_map]
    intro entry hentry
    exact hchild entry hentry entry.2 (by simp) (hvalue entry hentry)

theorem unary {op : UnaryOperator} {operand : NodeId} {type : DataType}
    (ih : PlainBelow tree g (.unary op operand type))
    (hnames : PlainNames (.node info ((Payload.unary op operand type).map g)))
    (hoperand : tree.IsExpression operand) :
    Plain .expression (.node info ((Payload.unary op operand type).map g)) := by
  apply Plain.unary
  exact ih.child hnames (List.Subset.refl _) List.mem_cons_self hoperand

theorem binary {op : BinaryOperator} {lhs rhs : NodeId} {type : DataType}
    (ih : PlainBelow tree g (.binary op lhs rhs type))
    (hnames : PlainNames (.node info ((Payload.binary op lhs rhs type).map g)))
    (hlhs : tree.IsExpression lhs) (hrhs : tree.IsExpression rhs) :
    Plain .expression (.node info ((Payload.binary op lhs rhs type).map g)) := by
  have hright : rhs ∈ (Payload.binary op lhs rhs type).children :=
    List.mem_cons_of_mem _ List.mem_cons_self
  apply Plain.binary
  · exact ih.child hnames (List.Subset.refl _) List.mem_cons_self hlhs
  · exact ih.child hnames (List.Subset.refl _) hright hrhs

theorem cast {operand : NodeId} {target : DataType}
    (ih : PlainBelow tree g (.cast operand target))
    (hnames : PlainNames (.node info ((Payload.cast operand target).map g)))
    (hoperand : tree.IsExpression operand) :
    Plain .expression (.node info ((Payload.cast operand target).map g)) := by
  apply Plain.cast
  exact ih.child hnames (List.Subset.refl _) List.mem_cons_self hoperand

/-- The name of the callee comes before those of the arguments. -/
theorem call {callee : String} {arguments : List NodeId} {type : DataType}
    (ih : PlainBelow tree g (.call callee arguments type))
    (hnames : PlainNames (.node info ((Payload.call callee arguments type).map g)))
    (harguments : ∀ a ∈ arguments, tree.IsExpression a) :
    Plain .expression (.node info ((Payload.call callee arguments type).map g)) := by
  apply Plain.call (hnames _ List.mem_cons_self)
  rw [List.forall_mem_map]
  intro c hc
  exact ih.child hnames (List.subset_cons_self _ _) hc (harguments c hc)

theorem comprehension {kind : ComprehensionKind} {element : NodeId} {generators : List NodeId}
    {type : DataType} (ih : PlainBelow tree g (.comprehension kind element generators type))
    (hnames : PlainNames (.node info ((Payload.comprehension kind element generators type).map g)))
    (helement : tree.IsExpression element) (hne : generators ≠ [])
    (hgenerators : ∀ c ∈ generators, tree.HasKind .clause c) :
    Plain .expression
      (.node info ((Payload.comprehension kind element generators type).map g)) := by
  apply Plain.comprehension
  · exact ih.child hnames (List.Subset.refl _) List.mem_cons_self helement
  · simpa using hne
  · rw [List.forall_mem_map]
    intro c hc
    have hmem := List.mem_cons_of_mem element hc
    exact ih.child hnames (List.Subset.refl _) hmem (hgenerators c hc)

/-- A clause shows the name of its target, and not the names below the target. -/
theorem clause {target iterable : NodeId} {conditions : List NodeId} {isAsync : Bool}
    (hg : TermsOf tree g) (ih : PlainBelow tree g (.clause target iterable conditions isAsync))
    (hnames : PlainNames (.node info ((Payload.clause target iterable conditions isAsync).map g)))
    (hiteration : tree.IsIteration target iterable conditions) :
    Plain .clause (.node info ((Payload.clause target iterable conditions isAsync).map g)) := by
  obtain ⟨type, element, htype, -, htarget⟩ := hiteration.elements
  obtain ⟨name, hname⟩ := hg.exists_boundName htarget
  have hmem : ∀ n, n = name ∨ n ∈ names (g iterable) ∨ (∃ c ∈ conditions, n ∈ names (g c)) →
      isPlain n = true := by
    intro n hn
    apply hnames n
    rw [names_node]
    simpa [Payload.map, nodeNames, hname, eq_comm, or_assoc] using hn
  apply Plain.clause hname (hmem name (Or.inl rfl))
  · exact ih iterable (by simp [Payload.children]) .expression ⟨_, htype⟩
      fun n hn => hmem n (Or.inr (Or.inl hn))
  · rw [List.forall_mem_map]
    intro c hc
    obtain ⟨_, hcondition, -⟩ := hiteration.conditions c hc
    exact ih c (by simp [Payload.children, hc]) .expression ⟨_, hcondition⟩
      fun n hn => hmem n (Or.inr (Or.inr ⟨c, hc, hn⟩))

end PlainBelow

/-- The term of an expression is plain if its names are. -/
theorem TermsOf.plain {phrase : Phrase} {g : NodeId → Term} (hg : TermsOf tree g)
    (ht : tree.Linked) (hw : tree.WellFormed) (hid : phrase.Below tree id)
    (hnames : PlainNames (g id)) : Plain phrase (g id) := by
  obtain ⟨node, hnode, -⟩ := hid.exists_node
  refine ht.induction (P := fun id => ∀ phrase : Phrase, phrase.Below tree id →
    PlainNames (g id) → Plain phrase (g id)) ?_ (Tree.has_of_node hnode) phrase hid hnames
  clear hid hnode hnames
  intro id _ ih phrase hid hnames
  obtain ⟨⟨tag, loc, parent, comment, p⟩, hnode, hholds⟩ := hid.exists_node
  have hfits := hw id p (Tree.payload_eq_ok_iff.mpr ⟨_, hnode, rfl⟩)
  have hbelow : PlainBelow tree g p := fun c hc => ih c (ht.childOf_of_mem hnode hc)
  rw [hg id _ hnode] at hnames ⊢
  dsimp only at hholds hnames ⊢
  cases phrase with
  | expression =>
      cases hfits with
      | literal => exact Plain.literal
      | «variable» => exact Plain.variable (hnames _ (List.mem_singleton_self _))
      | collection htypes => exact hbelow.collection hnames htypes
      | mapping hkeys hvalues => exact hbelow.mapping hnames hkeys hvalues
      | unary htype => exact hbelow.unary hnames ⟨_, htype⟩
      | binary hleft hright => exact hbelow.binary hnames ⟨_, hleft⟩ ⟨_, hright⟩
      | cast htype => exact hbelow.cast hnames htype
      | call harguments => exact hbelow.call hnames harguments
      | comprehension hne hgenerators htype =>
          exact hbelow.comprehension hnames ⟨_, htype⟩ hne hgenerators
      | _ => cases hholds
  | clause =>
      cases hfits with
      | clause hiteration => exact hbelow.clause hg hnames hiteration
      | _ => cases hholds

/-- Nodes other than modules are rendered as the text of their terms. -/
theorem render_eq {writer : Writer} {t : Term} {s : String} (hterm : tree.term id = .ok t)
    (htext : Yields (text writer.options t) s) (hkind : t.kind ≠ .module) :
    (writer.render tree id).1 = .ok s := by
  unfold Writer.render
  rw [hterm]
  simp only [hkind, decide_false, Bool.false_and, Bool.false_eq_true, if_false]
  exact congrArg Except.ok (htext writer.imports)

theorem Plain.kind_ne_module {t : Term} (h : Plain .expression t) : t.kind ≠ .module := by
  cases h <;> exact nofun

/-- A plain expression is rendered, and gives its operators back exactly when it is
tight. -/
theorem Plain.read_render {t : Term} (h : Plain .expression t) (writer : Writer)
    (hterm : tree.term id = .ok t) :
    ∃ s, (writer.render tree id).1 = .ok s ∧
      (read s = some (operators t) ↔ (written t).tight = true) := by
  obtain ⟨s, hs, hread⟩ := h.read_text
  exact ⟨s, render_eq hterm hs h.kind_ne_module, hread⟩

/-- After every run an expression has a term, which is plain if its names are. -/
theorem plain_run (actions : List Workspace.Action) (i : Nat) {id : NodeId}
    (hid : ((Workspace.run actions).tree i).IsExpression id) :
    ∃ t, ((Workspace.run actions).tree i).term id = .ok t ∧
      (PlainNames t → Plain .expression t) := by
  have ht := Tree.sound_run actions i
  obtain ⟨g, hg⟩ := ht.linked.exists_terms
  have hterms : TermsOf _ g := fun id node hnode => (hg id node hnode).2
  have hbelow : Phrase.expression.Below _ id := hid
  obtain ⟨node, hnode, -⟩ := hbelow.exists_node
  exact ⟨g id, (hg id node hnode).1,
    hterms.plain ht.linked ht.wellFormed hbelow⟩

/-- An expression in which every cast has a constructor and no signed number is
the base of a power gives its operators and operands back. -/
theorem read_render_clear (actions : List Workspace.Action) (i : Nat) (writer : Writer)
    {id : NodeId} (hid : ((Workspace.run actions).tree i).IsExpression id) :
    ∃ t, ((Workspace.run actions).tree i).term id = .ok t ∧
      (PlainNames t → clear t = true →
        ∃ s, (writer.render ((Workspace.run actions).tree i) id).1 = .ok s ∧
          read s = some (operators t)) := by
  obtain ⟨t, hterm, hplain⟩ := plain_run actions i hid
  refine ⟨t, hterm, fun hnames hclear => ?_⟩
  obtain ⟨s, hs, hread⟩ := (hplain hnames).read_render writer hterm
  exact ⟨s, hs, hread.mpr ((hplain hnames).tight_written hclear)⟩

/-- A rendered expression with plain names gives its operators and operands back
exactly when the written expression is tight. -/
theorem read_render_run (actions : List Workspace.Action) (i : Nat) (writer : Writer)
    (id : NodeId) (hid : ((Workspace.run actions).tree i).IsExpression id) :
    ∃ t, ((Workspace.run actions).tree i).term id = .ok t ∧
      (PlainNames t →
        ∃ s, (writer.render ((Workspace.run actions).tree i) id).1 = .ok s ∧
          (read s = some (operators t) ↔ (written t).tight = true)) := by
  obtain ⟨t, hterm, hplain⟩ := plain_run actions i hid
  exact ⟨t, hterm, fun hnames => (hplain hnames).read_render writer hterm⟩

/-- A run that multiplies a cast sum. -/
def castSum (target : DataType) : List Workspace.Action :=
  [.newTree,
    .build 0 (.variable "a" (.int true .w64)),
    .build 0 (.variable "b" (.int true .w64)),
    .build 0 (.binary "+" ⟨0, 0⟩ ⟨0, 1⟩),
    .build 0 (.cast ⟨0, 2⟩ target),
    .build 0 (.variable "c" (.int true .w64)),
    .build 0 (.binary "*" ⟨0, 3⟩ ⟨0, 4⟩)]

/-- Below a constructor the sum is read as one factor. -/
theorem read_castSum_int :
    let tree := (Workspace.run (castSum (.int true .w64))).tree 0
    tree.IsExpression ⟨0, 5⟩ ∧ ∃ t s, tree.term ⟨0, 5⟩ = .ok t ∧
      ((Writer.new .default).render tree ⟨0, 5⟩).1 = .ok s ∧ read s = some (operators t) := by
  intro tree
  have hid : tree.IsExpression ⟨0, 5⟩ := ⟨.int true .w64, rfl⟩
  obtain ⟨t, hterm, hread⟩ :=
    read_render_run (castSum (.int true .w64)) 0 (.new .default) ⟨0, 5⟩ hid
  have hplain : PlainNames t ∧ (written t).tight = true := by
    have hany : (tree.term ⟨0, 5⟩).toOption.any
        (fun t => decide (PlainNames t ∧ (written t).tight = true)) = true := by decide
    rw [hterm] at hany
    exact of_decide_eq_true hany
  obtain ⟨s, hs, hiff⟩ := hread hplain.1
  exact ⟨hid, t, s, hterm, hs, hiff.mpr hplain.2⟩

/-- Below a cast without a constructor it is not: the product takes one of the
summands. -/
theorem misread_castSum_any :
    let tree := (Workspace.run (castSum .any)).tree 0
    tree.IsExpression ⟨0, 5⟩ ∧ ∃ t, tree.term ⟨0, 5⟩ = .ok t ∧ PlainNames t ∧
      ((Writer.new .default).render tree ⟨0, 5⟩).1 = .ok "a + b * c" ∧
        read "a + b * c" ≠ some (operators t) :=
  ⟨⟨.int true .w64, rfl⟩, _, rfl, by decide, rfl, by decide⟩

/-- The sign of a negative base applies to the power. -/
example : read "-2 ** 2" =
    some (.unary .neg (.binary .pow (.atom (.number "2")) (.atom (.number "2")))) := by
  decide

end TypedSyntax.Python
