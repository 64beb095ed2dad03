import TypedSyntax.Proofs.Python.Layout
import TypedSyntax.Proofs.Python.Openings
import TypedSyntax.Proofs.Python.Precedence

/-!
# Casts without a constructor

A cast to a type that has no constructor is not written. A text shows it only where
an operation below it is an operand: parentheses depend on the kind of the operand,
which is the cast. Wherever else such casts stand, the text is that of the term
without them.
-/

namespace TypedSyntax

namespace Payload

variable {α : Type}

/-- An expression is no conditional and no module. -/
theorem kind_ne_of_valueType {p : Payload α} (h : p.valueType?.isSome = true) {kind : Kind}
    (hkind : kind = .conditional ∨ kind = .module) : p.kind ≠ kind := by
  rintro rfl
  cases p with
  | conditional | module => cases h
  | _ => rcases hkind with hkind | hkind <;> cases hkind

end Payload

namespace Term

open Python (castName?)

/-- The term with another comment. -/
def under (t : Term) (comment : String) : Term :=
  .node { t.info with comment } t.payload

/-- Whether a term is a cast that calls no constructor. -/
def isTransparent (t : Term) : Bool :=
  match t.payload with
  | .cast _ target => (castName? target).isNone
  | _ => false

/-- The term without casts that call no constructor. The operand of such a cast
takes its place, below its comment. -/
def uncast : Term → Term :=
  fold fun info payload =>
    match payload with
    | .cast operand target =>
      if (castName? target).isNone then operand.2.under info.comment
      else .node info (.cast operand.2 target)
    | other => .node info (other.map (·.2))

/-- Whether a term is an operation below casts that call no constructor. -/
def isVeiled (t : Term) : Bool :=
  t.isTransparent && (t.uncast.kind = .unary || t.uncast.kind = .binary)

/-- How many operands in a term are operations below casts that call no
constructor. -/
def veils : Term → Nat :=
  fold fun _ payload =>
    (payload.children.map (·.2)).sum + (payload.operands.map fun c => c.1.isVeiled.toNat).sum

variable {info : TermInfo} {p : Payload Term} {t : Term}

theorem exists_cast (h : (node info p).isTransparent = true) :
    ∃ operand target, p = .cast operand target ∧ castName? target = none := by
  cases p with
  | cast operand target => exact ⟨operand, target, rfl, Option.isNone_iff_eq_none.mp h⟩
  | _ => cases h

theorem uncast_cast {operand : Term} {target : DataType} (h : castName? target = none) :
    (node info (.cast operand target)).uncast = operand.uncast.under info.comment := by
  rw [uncast, fold_node]
  simp only [Payload.map, h, Option.isNone_none, if_true]

theorem uncast_node (h : (node info p).isTransparent = false) :
    (node info p).uncast = .node info (p.map uncast) := by
  rw [uncast, fold_node]
  cases p with
  | cast operand target =>
      have htarget : (castName? target).isNone = false := h
      simp only [Payload.map, htarget, Bool.false_eq_true, if_false]
  | _ => simp [Payload.map, Function.comp_def]

@[simp] theorem comment_uncast (t : Term) : t.uncast.comment = t.comment := by
  obtain ⟨info, p⟩ := t
  cases h : (node info p).isTransparent with
  | false =>
      rw [uncast_node h]
      rfl
  | true =>
      obtain ⟨operand, target, rfl, htarget⟩ := exists_cast h
      rw [uncast_cast htarget]
      rfl

/-- Operands that are veiled are counted once, at the operation. -/
theorem veils_node : (node info p).veils =
    (p.children.map veils).sum + (p.operands.map fun c => c.isVeiled.toNat).sum := by
  rw [veils, fold_node, Payload.children_map, Payload.operands_map, List.map_map, List.map_map]
  rfl

theorem veils_node_eq_zero : (node info p).veils = 0 ↔
    (∀ c ∈ p.operands, c.isVeiled = false) ∧ ∀ c ∈ p.children, c.veils = 0 := by
  rw [veils_node, Nat.add_eq_zero_iff, List.sum_eq_zero_iff_forall_eq_nat,
    List.sum_eq_zero_iff_forall_eq_nat, List.forall_mem_map, List.forall_mem_map, and_comm]
  simp only [Bool.toNat_eq_zero]

/-- Only a cast that calls no constructor changes its kind. -/
theorem kind_uncast (h : t.isTransparent = false) : t.uncast.kind = t.kind := by
  obtain ⟨info, p⟩ := t
  rw [uncast_node h]
  exact Payload.kind_map _ p

end Term

namespace Python

open Term

variable {options : PythonOptions} {t : Term}

/-- An operand is put in parentheses by its kind alone. -/
theorem operand_eq (part : Part) :
    operand part = if part.1.kind = .unary ∨ part.1.kind = .binary then
      (do return "(" ++ (← part.2) ++ ")") else part.2 := by
  unfold operand
  cases part.1.kind <;> simp

theorem kind_of_isTransparent (h : t.isTransparent = true) : t.kind = .cast := by
  obtain ⟨info, p⟩ := t
  obtain ⟨operand, target, rfl, -⟩ := exists_cast h
  rfl

/-- An operand is written in the same way without its casts, unless it is an
operation below them. -/
theorem operand_uncast (h : t.isVeiled = false) (m : Writing String) :
    operand (t.uncast, m) = operand (t, m) := by
  rw [operand_eq, operand_eq]
  cases htransparent : t.isTransparent with
  | false => rw [kind_uncast htransparent]
  | true =>
      have hkind : ¬ (t.uncast.kind = .unary ∨ t.uncast.kind = .binary) := by
        simpa [isVeiled, htransparent] using h
      have hcast : ¬ (t.kind = .unary ∨ t.kind = .binary) := by
        simp [kind_of_isTransparent htransparent]
      rw [if_neg hkind, if_neg hcast]

/-- An operation below casts has no parentheses as an operand, and has them without
the casts. -/
theorem operand_veiled (h : t.isVeiled = true) (m : Writing String) :
    operand (t, m) = m ∧ operand (t.uncast, m) = do return "(" ++ (← m) ++ ")" := by
  obtain ⟨htransparent, hkind⟩ := Bool.and_eq_true_iff.mp h
  rw [Bool.or_eq_true, decide_eq_true_eq, decide_eq_true_eq] at hkind
  rw [operand_eq, operand_eq, if_pos hkind]
  simp [kind_of_isTransparent htransparent]

/-- An operand gains the parentheses that its text gains without casts, and its own
if it is an operation below them. -/
theorem more_operand {k : Nat} {m m' : Writing String} (h : Coupled (· = ·) (More k) m m') :
    Coupled (· = ·) (More (k + t.isVeiled.toNat)) (operand (t, m)) (operand (t.uncast, m')) := by
  cases hveiled : t.isVeiled with
  | true =>
      have hwrapped : ∀ {s s'}, More k s s' → More (k + 1) s ("(" ++ s' ++ ")") := by
        intro s s' hmore
        have hparentheses : openings "(" = 1 ∧ openings ")" = 0 := by decide
        rw [More] at hmore ⊢
        rw [openings_append, openings_append, hparentheses.1, hparentheses.2, hmore]
        omega
      rw [(operand_veiled hveiled m).1, (operand_veiled hveiled m').2]
      have hbound := h.bind fun _ _ hmore => coupled_pure (hwrapped hmore)
      rwa [bind_pure] at hbound
  | false =>
      rw [operand_uncast hveiled]
      exact coupled_operand comparison_more h rfl

/-- Of a target only the name is written. -/
theorem target_uncast (h : (boundName? t).isSome = true) (m m' : Writing String) :
    target (t.uncast, m) = target (t, m') := by
  obtain ⟨info, p⟩ := t
  cases p with
  | «variable» | declaration => rfl
  | _ => cases h

/-- A text does not show the comment of its own node. -/
theorem text_under (t : Term) (comment : String) :
    text options (t.under comment) = text options t := by
  obtain ⟨info, p⟩ := t
  rw [Term.under, text_node, text_node]
  refine nodeText_congr ?_ rfl
  exact ⟨fun _ _ => rfl, fun _ _ => rfl, fun _ _ => rfl, fun _ _ => rfl, fun _ _ => rfl⟩

/-- A cast that calls no constructor has the text of its operand. -/
theorem text_cast {info : TermInfo} {operand : Term} {type : DataType}
    (h : castName? type = none) :
    text options (.node info (.cast operand type)) = text options operand := by
  rw [text_node, Payload.map, nodeText, writeCast, h]
  exact bind_pure _

end Python

namespace Tree

open Python

variable {tree : Tree} {g : NodeId → Term} {id : NodeId} {node : Node}
  {options : PythonOptions}

/-- Such a cast stands over an expression. -/
theorem Cuts.exists_cast (hg : tree.Cuts g) (hnode : tree.node id = .ok node)
    (h : (g id).isTransparent = true) :
    ∃ operand target, node.payload = .cast operand target ∧ castName? target = none ∧
      tree.IsExpression operand ∧ tree.ChildOf operand id := by
  rw [hg.node_eq hnode] at h
  obtain ⟨t, target, hmap, htarget⟩ := Term.exists_cast h
  have hfits := hg.wellFormed id _ (payload_eq_ok_iff.mpr ⟨node, hnode, rfl⟩)
  have hchild : ∀ c ∈ node.payload.children, tree.ChildOf c id :=
    fun c hc => hg.linked.childOf_of_mem hnode hc
  cases hp : node.payload with
  | cast operand type =>
      rw [hp] at hmap hfits hchild
      obtain ⟨-, rfl⟩ := Payload.cast.inj hmap
      cases hfits with
      | cast hoperand =>
          exact ⟨operand, type, rfl, htarget, hoperand, hchild operand List.mem_cons_self⟩
  | _ =>
      rw [hp] at hmap
      cases hmap

/-- An expression is one without its casts. -/
theorem Cuts.isSome_valueType_uncast (hg : tree.Cuts g) (hid : tree.IsExpression id) :
    (g id).uncast.payload.valueType?.isSome = true := by
  obtain ⟨node, hnode, -⟩ := (show Phrase.expression.Below tree id from hid).exists_node
  refine hg.linked.induction (P := fun id => tree.IsExpression id →
    (g id).uncast.payload.valueType?.isSome = true) ?_ (has_of_node hnode) hid
  clear hid hnode
  intro id hhas ih hid
  obtain ⟨node, hnode, hvalue⟩ := (show Phrase.expression.Below tree id from hid).exists_node
  cases h : (g id).isTransparent with
  | false =>
      rw [hg.node_eq hnode] at h ⊢
      rw [Term.uncast_node h, Term.payload, Payload.valueType?_map, Payload.valueType?_map]
      exact hvalue
  | true =>
      obtain ⟨operand, target, hp, htarget, hoperand, hchild⟩ := hg.exists_cast hnode h
      rw [hg.node_eq hnode, hp, Payload.map, Term.uncast_cast htarget]
      exact ih operand hchild hoperand

/-- Only a cast is of another kind without casts, and that of an expression. -/
theorem Cuts.kind_uncast (hg : tree.Cuts g) (hid : tree.Has id) :
    (g id).uncast.kind = (g id).kind ∨ (g id).kind = .cast ∧
      (g id).uncast.payload.valueType?.isSome = true := by
  obtain ⟨node, hnode⟩ := has_iff.mp hid
  cases h : (g id).isTransparent with
  | false => exact Or.inl (Term.kind_uncast h)
  | true =>
      obtain ⟨operand, target, hp, htarget, hoperand, -⟩ := hg.exists_cast hnode h
      refine Or.inr ⟨kind_of_isTransparent h, ?_⟩
      rw [hg.node_eq hnode, hp, Payload.map, Term.uncast_cast htarget]
      exact hg.isSome_valueType_uncast hoperand

/-- No cast stands over a conditional or a module. -/
theorem Cuts.kind_uncast_eq_iff (hg : tree.Cuts g) (hid : tree.Has id) {kind : Kind}
    (hkind : kind = .conditional ∨ kind = .module) :
    (g id).uncast.kind = kind ↔ (g id).kind = kind := by
  rcases hg.kind_uncast hid with heq | ⟨hcast, hvalue⟩
  · rw [heq]
  · have hne : (g id).kind ≠ kind := by
      rw [hcast]
      rcases hkind with rfl | rfl <;> exact nofun
    exact iff_of_false (Payload.kind_ne_of_valueType hvalue hkind) hne

/-- Whether an alternative is another conditional does not depend on casts. -/
theorem Cuts.isElif_uncast (hg : tree.Cuts g) (hid : tree.Has id)
    (hblock : (g id).kind = .block) : isElif (g id).uncast = isElif (g id) := by
  obtain ⟨node, hnode⟩ := has_iff.mp hid
  have hchild : ∀ c ∈ node.payload.children, tree.Has c :=
    fun c hc => (hg.linked.childOf_of_mem hnode hc).has
  rw [hg.node_eq hnode] at hblock ⊢
  cases hp : node.payload with
  | block name nodes =>
      rw [hp] at hchild
      rw [Payload.map, Term.uncast_node rfl]
      rcases nodes with - | ⟨only, - | ⟨next, rest⟩⟩
      · rfl
      · have hkind := hg.kind_uncast_eq_iff (hchild only List.mem_cons_self) (Or.inl rfl)
        change (decide ((g only).uncast.kind = .conditional) &&
          (g only).uncast.comment.isEmpty) = _
        rw [Term.comment_uncast, decide_eq_decide.mpr hkind]
        rfl
      · rfl
  | _ =>
      rw [hp] at hblock
      cases hblock

theorem Fits.alternative {p : Payload NodeId} (h : tree.Fits p) :
    ∀ c ∈ p.alternative?, tree.HasKind .block c := by
  cases h with
  | conditional _ _ halternative => exact halternative
  | _ => exact fun _ hc => nomatch hc

/-- An alternative goes on after `el` with and without casts. -/
theorem Cuts.isElif_alternative (hg : tree.Cuts g) (hnode : tree.node id = .ok node) :
    ∀ c ∈ node.payload.alternative?, isElif (g c).uncast = isElif (g c) := by
  intro c hc
  have hfits := hg.wellFormed id _ (payload_eq_ok_iff.mpr ⟨node, hnode, rfl⟩)
  obtain ⟨block, hblock, hkind⟩ := map_eq_ok_iff.mp (hfits.alternative c hc)
  apply hg.isElif_uncast (has_of_node hblock)
  rw [hg.node_eq hblock]
  exact (Payload.kind_map g _).trans hkind

/-- The target of a loop or clause holds no operation. -/
theorem Cuts.veils_target (hg : tree.Cuts g) (hnode : tree.node id = .ok node) :
    ∀ c ∈ node.payload.target?, (g c).veils = 0 := by
  intro c hc
  have hfits := hg.wellFormed id _ (payload_eq_ok_iff.mpr ⟨node, hnode, rfl⟩)
  rcases hfits.target hc with ⟨name, type, hp⟩ | ⟨declared, hp⟩
  all_goals
    obtain ⟨⟨_, _, _, _, p⟩, hbound, rfl⟩ := payload_eq_ok_iff.mp hp
    rw [hg.node_eq hbound]
    rfl

/-- The children of a node are shown in the same way without casts. -/
theorem Cuts.alike_uncast (hg : tree.Cuts g) (hnode : tree.node id = .ok node)
    (htext : ∀ c ∈ node.payload.children, text options (g c).uncast = text options (g c))
    (hoperand : ∀ c ∈ node.payload.operands, (g c).isVeiled = false) :
    Alike (fun c => ((g c).uncast, text options (g c).uncast))
      (fun c => (g c, text options (g c))) node.payload := by
  have hfits := hg.wellFormed id _ (payload_eq_ok_iff.mpr ⟨node, hnode, rfl⟩)
  constructor
  · exact htext
  · exact fun c _ => Term.comment_uncast (g c)
  · intro c hc
    rw [htext c (Payload.mem_of_mem_operands hc)]
    exact operand_uncast (hoperand c hc) _
  · exact fun c hc => target_uncast (hg.boundName_isSome hfits hc) _ _
  · exact hg.isElif_alternative hnode

/-- A node whose operands are no operations below casts has the text of the term
without casts. -/
theorem Cuts.text_uncast (hg : tree.Cuts g) (hid : tree.Has id)
    (hveils : (g id).veils = 0) :
    text options (g id).uncast = text options (g id) := by
  revert hveils
  refine hg.linked.induction (P := fun id => (g id).veils = 0 →
    text options (g id).uncast = text options (g id)) ?_ hid
  intro id hid ih hveils
  obtain ⟨node, hnode⟩ := has_iff.mp hid
  have hnodes := hveils
  rw [hg.node_eq hnode, Term.veils_node_eq_zero, Payload.operands_map, Payload.children_map,
    List.forall_mem_map, List.forall_mem_map] at hnodes
  obtain ⟨hoperands, hchildren⟩ := hnodes
  have htext : ∀ c ∈ node.payload.children, text options (g c).uncast = text options (g c) :=
    fun c hc => ih c (hg.linked.childOf_of_mem hnode hc) (hchildren c hc)
  cases h : (g id).isTransparent with
  | false =>
      have halike := hg.alike_uncast hnode htext hoperands
      rw [hg.node_eq hnode] at h ⊢
      rw [Term.uncast_node h, text_node, text_node, Payload.map_map, Payload.map_map,
        Payload.map_map]
      exact nodeText_congr halike rfl
  | true =>
      obtain ⟨operand, target, hp, htarget, -, hchild⟩ := hg.exists_cast hnode h
      rw [hp] at htext
      rw [hg.node_eq hnode, hp, Payload.map, Term.uncast_cast htarget, text_under,
        text_cast htarget, htext operand List.mem_cons_self]

/-- The text of a node gains an opening parenthesis for each operand that is an
operation below casts. -/
theorem Cuts.more_uncast (hg : tree.Cuts g) (hid : tree.Has id) :
    Coupled (· = ·) (More (g id).veils) (text options (g id)) (text options (g id).uncast) := by
  refine hg.linked.induction (P := fun id => Coupled (· = ·) (More (g id).veils)
    (text options (g id)) (text options (g id).uncast)) ?_ hid
  intro id hid ih
  obtain ⟨node, hnode⟩ := has_iff.mp hid
  have hfits := hg.wellFormed id _ (payload_eq_ok_iff.mpr ⟨node, hnode, rfl⟩)
  have htext : ∀ c ∈ node.payload.children,
      Coupled (· = ·) (More (g c).veils) (text options (g c)) (text options (g c).uncast) :=
    fun c hc => ih c (hg.linked.childOf_of_mem hnode hc)
  cases h : (g id).isTransparent with
  | false =>
      have hparallel : Parallel (· = ·) More (fun c => (g c, text options (g c)))
          (fun c => ((g c).uncast, text options (g c).uncast)) (fun c => (g c).veils)
          (fun c => (g c).isVeiled.toNat) node.payload := by
        constructor
        · exact htext
        · exact fun c _ => (Term.comment_uncast (g c)).symm
        · exact fun c hc => more_operand (htext c (Payload.mem_of_mem_operands hc))
        · intro c hc
          rw [hg.veils_target hnode c hc, target_uncast (hg.boundName_isSome hfits hc) _
            (text options (g c))]
          exact (coupled_self _).imp fun _ _ => fun hsame => hsame ▸ comparison_more.refl _
        · exact fun c hc => (hg.isElif_alternative hnode c hc).symm
      have hveils : (g id).veils = (node.payload.children.map fun c => (g c).veils).sum +
          (node.payload.operands.map fun c => (g c).isVeiled.toNat).sum := by
        rw [hg.node_eq hnode, Term.veils_node, Payload.children_map, Payload.operands_map,
          List.map_map, List.map_map]
        rfl
      rw [hveils]
      rw [hg.node_eq hnode] at h ⊢
      rw [Term.uncast_node h, text_node, text_node, Payload.map_map, Payload.map_map,
        Payload.map_map]
      exact more_nodeText hparallel _
  | true =>
      obtain ⟨operand, target, hp, htarget, -, hchild⟩ := hg.exists_cast hnode h
      rw [hp] at htext
      have hoperand := htext operand List.mem_cons_self
      have hveils : (g id).veils = (g operand).veils := by
        rw [hg.node_eq hnode, hp, Term.veils_node]
        rfl
      rw [hveils, hg.node_eq hnode, hp, Payload.map, Term.uncast_cast htarget, text_under,
        text_cast htarget]
      exact hoperand

end Tree

namespace Python

/-- Renders a term. A module's text ends with a line feed. -/
def Writer.renderTerm (writer : Writer) (t : Term) : String × Writer :=
  let (out, imports) := (text writer.options t).run writer.imports
  (if t.kind = .module && !out.isEmpty then out ++ "\n" else out, { writer with imports })

theorem Writer.render_eq_renderTerm {tree : Tree} {id : NodeId} {t : Term} (writer : Writer)
    (h : tree.term id = .ok t) :
    writer.render tree id = (.ok (writer.renderTerm t).1, (writer.renderTerm t).2) := by
  rw [render, h]
  rfl

theorem openings_renderTerm (writer : Writer) (t : Term) :
    openings (writer.renderTerm t).1 = openings ((text writer.options t).run writer.imports).1 := by
  have hline : ∀ (ends : Bool) (out : String),
      openings (if ends then out ++ "\n" else out) = openings out := by
    intro ends out
    split
    · rw [openings_append]
      rfl
    · rfl
  exact hline _ _

/-- After every run, what a writer renders of a node is the rendering of its term. That
of the term without the casts that call no constructor has one more opening parenthesis
for each operand that is an operation below them, and is the same if there is none. -/
theorem render_uncast_run (actions : List Workspace.Action) (i : Nat) (writer : Writer)
    (id : NodeId) (hid : ((Workspace.run actions).tree i).Has id) :
    ∃ t, ((Workspace.run actions).tree i).term id = .ok t ∧
      writer.render ((Workspace.run actions).tree i) id =
        (.ok (writer.renderTerm t).1, (writer.renderTerm t).2) ∧
      openings (writer.renderTerm t.uncast).1 = openings (writer.renderTerm t).1 + t.veils ∧
      (writer.renderTerm t.uncast).2 = (writer.renderTerm t).2 ∧
      (writer.renderTerm t.uncast = writer.renderTerm t ↔ t.veils = 0) := by
  obtain ⟨g, hg⟩ := Tree.cuts_run actions i
  obtain ⟨node, hnode⟩ := Tree.has_iff.mp hid
  have hcoupled : Coupled _ _ (text writer.options (g id)) _ := hg.more_uncast hid
  obtain ⟨hmore, himports⟩ := hcoupled writer.imports writer.imports rfl
  have hopenings : openings (writer.renderTerm (g id).uncast).1 =
      openings (writer.renderTerm (g id)).1 + (g id).veils := by
    rw [openings_renderTerm, openings_renderTerm]
    exact hmore
  refine ⟨g id, hg.term_eq hnode, writer.render_eq_renderTerm (hg.term_eq hnode), hopenings, ?_, ?_⟩
  · exact congrArg (Writer.mk writer.options) himports.symm
  · constructor
    · intro h
      rw [h] at hopenings
      omega
    · intro hveils
      have hmodule := hg.kind_uncast_eq_iff hid (Or.inr rfl)
      rw [Writer.renderTerm, Writer.renderTerm, hg.text_uncast hid hveils,
        decide_eq_decide.mpr hmodule]

/-- A run that lists a sum below two casts. -/
def listedSum : List Workspace.Action :=
  [.newTree,
    .build 0 (.variable "a" (.int true .w64)),
    .build 0 (.variable "b" (.int true .w64)),
    .build 0 (.binary "+" ⟨0, 0⟩ ⟨0, 1⟩),
    .build 0 (.cast ⟨0, 2⟩ .any),
    .build 0 (.cast ⟨0, 3⟩ .date),
    .build 0 (.collection .list [⟨0, 4⟩])]

/-- A sum below two casts is no operand in a list, and has no parentheses. -/
theorem render_uncast_listedSum :
    let tree := (Workspace.run listedSum).tree 0
    tree.Has ⟨0, 5⟩ ∧ ∃ t, tree.term ⟨0, 5⟩ = .ok t ∧ t.veils = 0 ∧
      ((Writer.new .default).render tree ⟨0, 5⟩).1 = .ok "[a + b]" ∧
      ((Writer.new .default).renderTerm t.uncast).1 = "[a + b]" := by
  intro tree
  have hid : tree.Has ⟨0, 5⟩ := Tree.has_of_node rfl
  obtain ⟨t, hterm, hrender, -, -, hsame⟩ :=
    render_uncast_run listedSum 0 (.new .default) ⟨0, 5⟩ hid
  have hveils : t.veils = 0 := by
    obtain rfl := Except.ok.inj hterm
    decide
  have htext : ((Writer.new .default).renderTerm t).1 = "[a + b]" := by
    obtain rfl := Except.ok.inj hterm
    rfl
  refine ⟨hid, t, hterm, hveils, ?_, ?_⟩
  · rw [hrender, htext]
  · rw [hsame.mpr hveils, htext]

/-- Where a sum below a cast is a factor, the text is another one without the cast. -/
theorem render_uncast_castSum :
    let tree := (Workspace.run (castSum .any)).tree 0
    ((Writer.new .default).render tree ⟨0, 5⟩).1 = .ok "a + b * c" ∧
      ∃ t, tree.term ⟨0, 5⟩ = .ok t ∧
        ((Writer.new .default).renderTerm t.uncast).1 = "(a + b) * c" :=
  ⟨rfl, _, rfl, rfl⟩

end Python

end TypedSyntax
