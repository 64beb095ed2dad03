import TypedSyntax.Proofs.Export.Subtree
import TypedSyntax.Proofs.Python.Coupling
import TypedSyntax.Proofs.Term

/-!
# Normal forms of terms

A term in normal form keeps what simplified exports and texts show of it. The
stored types of operations, the modifiers of declared names and the spelling of
equal numbers are forgotten.
-/

namespace TypedSyntax

/-! ## Literals -/

/-- The double, or one NaN in place of every NaN. -/
def Double.canonical (x : Double) : Double :=
  if x.isNaN then ⟨BitVec.ofNat 64 (infinityBits + 1)⟩ else x

namespace LiteralValue

/-- The literal value with one form for each number. -/
def canonical : LiteralValue → LiteralValue
  | .int v => if v.toInt < 0 then .int v else .uint v
  | .float x => .float x.canonical
  | .complex real imag => .complex real.canonical imag.canonical
  | other => other

theorem toNat_eq_toInt {v : BitVec 128} (h : ¬ v.toInt < 0) : (v.toNat : Int) = v.toInt := by
  have hv := v.isLt
  rw [BitVec.toInt_eq_toNat_cond] at h ⊢
  split at h
  · rw [if_pos (by assumption)]
  · omega

theorem floatDatum_canonical (x : Double) : floatDatum x.canonical = floatDatum x := by
  have hnan : ∀ y : Double, y.isNaN = true → floatDatum y = .text "nan" := by
    intro y hy
    have hfield : y.exponentField = 2047 := by
      simpa using (Bool.and_eq_true_iff.mp hy).1
    simp [floatDatum, Double.isFinite, hfield, Datum.nonFiniteName, hy]
  unfold Double.canonical
  split
  · next hx => rw [hnan x hx, hnan _ (by decide)]
  · rfl

/-- The export of a literal does not tell canonical values apart. -/
theorem toDatum_canonical (v : LiteralValue) : v.canonical.toDatum = v.toDatum := by
  cases v with
  | int v =>
      rw [canonical]
      split
      · rfl
      · next h => exact congrArg integerDatum (toNat_eq_toInt h)
  | float x => exact floatDatum_canonical x
  | complex real imag =>
      rw [canonical, toDatum, toDatum, floatDatum_canonical, floatDatum_canonical]
  | _ => rfl

theorem floatLiteral_canonical (x : Double) :
    Python.floatLiteral x.canonical = Python.floatLiteral x := by
  have hnan : ∀ y : Double, y.isNaN = true → Python.floatLiteral y = "float('nan')" := by
    intro y hy
    rw [Python.floatLiteral, if_pos hy]
  unfold Double.canonical
  split
  · next hx => rw [hnan x hx, hnan _ (by decide)]
  · rfl

/-- Neither does its text. -/
theorem literal_canonical (v : LiteralValue) (type : DataType) :
    Python.literal v.canonical type = Python.literal v type := by
  cases v with
  | int v =>
      rw [canonical]
      split
      · rfl
      · next h =>
        have htext : toString v.toNat = toString v.toInt := congrArg toString (toNat_eq_toInt h)
        exact congrArg pure htext
  | float x => exact congrArg pure (floatLiteral_canonical x)
  | complex real imag =>
      rw [canonical, Python.literal, Python.literal, floatLiteral_canonical,
        floatLiteral_canonical]
  | _ => rfl

end LiteralValue

/-! ## Payloads -/

namespace Payload

variable {α β : Type}

/-- The payload without the attributes that neither a simplified export nor a
text shows. -/
def canonical : Payload α → Payload α
  | .literal value type => .literal value.canonical type
  | .collection kind elements _ => .collection kind elements .any
  | .mapping entries _ => .mapping entries .any
  | .variable name _ => .variable name .any
  | .declaration declared value =>
    .declaration ⟨declared.name, declared.type, .constant, .«public», .«global»⟩ value
  | .unary op operand _ => .unary op operand .any
  | .binary op lhs rhs _ => .binary op lhs rhs .any
  | .argument parameter default => .argument ⟨parameter.name, parameter.type, .constant⟩ default
  | .prototype signature arguments =>
    .prototype ⟨signature.name, signature.returnType, .«global», .«public», .constant⟩ arguments
  | .call callee arguments _ => .call callee arguments .any
  | .comprehension kind element generators _ => .comprehension kind element generators .any
  | other => other

@[simp] theorem kind_canonical (p : Payload α) : p.canonical.kind = p.kind := by
  cases p <;> rfl

@[simp] theorem children_canonical (p : Payload α) : p.canonical.children = p.children := by
  cases p <;> rfl

theorem canonical_map (f : α → β) (p : Payload α) :
    (p.map f).canonical = p.canonical.map f := by
  cases p <;> rfl

end Payload

/-- The attributes that a text shows: the comment, and whether the node heads a
method. -/
def TermInfo.shown (info : TermInfo) : TermInfo :=
  ⟨⟨0, 0⟩, 0, .unknown, info.comment, info.isMethod⟩

namespace Term

/-- The function goes through all nodes of a term: `keep` says what stays of the
attributes that every node has, `erase` what stays of the payload. -/
structure Rebuilds (f : Term → Term) (keep : TermInfo → TermInfo)
    (erase : ∀ {α : Type}, Payload α → Payload α) : Prop where
  node : ∀ info p, f (.node info p) = .node (keep info) (erase (p.map f))
  map : ∀ {α β : Type} (g : α → β) (p : Payload α), erase (p.map g) = (erase p).map g
  kind : ∀ {α : Type} (p : Payload α), (erase p).kind = p.kind
  children : ∀ {α : Type} (p : Payload α), (erase p).children = p.children

section Rebuilds

variable {f : Term → Term} {keep : TermInfo → TermInfo}
  {erase : ∀ {α : Type}, Payload α → Payload α}

/-- Rebuilding a term keeps its kind. -/
theorem Rebuilds.kind_eq (hf : Rebuilds f keep erase) (t : Term) : (f t).kind = t.kind := by
  obtain ⟨info, p⟩ := t
  rw [hf.node]
  exact (hf.kind _).trans (Payload.kind_map f p)

/-- What a fold computes for a rebuilt term, if it sees no difference between a
payload and what stays of it, nor between a child and the rebuilt child. -/
theorem Rebuilds.fold_eq (hf : Rebuilds f keep erase) {β : Type}
    {value : TermInfo → Payload (Term × β) → β}
    (hvalue : ∀ info p, value (keep info) ((erase p).map fun c => (f c.1, c.2)) = value info p)
    (t : Term) : fold value (f t) = fold value t := by
  induction t using induction with
  | node info p ih =>
    have hchildren : (p.map f).map (fun c => (c, fold value c)) =
        (p.map fun c => (c, fold value c)).map fun c => (f c.1, c.2) := by
      rw [Payload.map_map, Payload.map_map]
      apply Payload.map_congr
      intro c hc
      rw [ih c hc]
    rw [hf.node, fold_node, fold_node, ← hf.map, hchildren, hf.map, hvalue]

end Rebuilds

/-- The normal form of a term, in which `keep` says what stays of the
attributes that every node has. -/
def normal (keep : TermInfo → TermInfo) : Term → Term :=
  fold fun info payload => .node (keep info) (payload.map (·.2)).canonical

variable {keep : TermInfo → TermInfo}

theorem normal_node (info : TermInfo) (p : Payload Term) :
    normal keep (.node info p) = .node (keep info) (p.map (normal keep)).canonical := by
  rw [normal, fold_node, Payload.map_map]

theorem rebuilds_normal : Rebuilds (normal keep) keep Payload.canonical :=
  ⟨normal_node, Payload.canonical_map, Payload.kind_canonical, Payload.children_canonical⟩

@[simp] theorem kind_normal (t : Term) : (t.normal keep).kind = t.kind :=
  rebuilds_normal.kind_eq t

@[simp] theorem label_normal (t : Term) : (t.normal keep).label = t.label := by
  obtain ⟨info, p⟩ := t
  rw [normal_node]
  cases p with
  | collection kind => cases kind <;> rfl
  | function head body =>
      obtain ⟨_, q⟩ := head
      rw [Payload.map, normal_node]
      cases q <;> rfl
  | clause _ _ _ isAsync => cases isAsync <;> rfl
  | comprehension kind => cases kind <;> rfl
  | _ => rfl

/-! ## Simplified exports -/

/-- The content of a node does not show what its canonical form drops. -/
theorem contentFrom_canonical (detail : Detail) (p : Payload (Term × Datum)) :
    contentFrom detail p.canonical = contentFrom detail p := by
  cases p with
  | literal value type => exact value.toDatum_canonical
  | _ => rfl

/-- The content of a node is made of the exports of its children and the content
of a function's head. -/
theorem contentFrom_congr {α : Type} {detail : Detail} {f f' : α → Term × Datum} {p : Payload α}
    (h : ∀ c ∈ p.children, (f c).1.exported detail (f c).2 = (f' c).1.exported detail (f' c).2)
    (hcontent : ∀ c ∈ p.children, (f c).2 = (f' c).2) :
    contentFrom detail (p.map f) = contentFrom detail (p.map f') := by
  rw [contentFrom, contentFrom, Payload.map_map, Payload.map_map]
  apply congrArg contentOf
  apply Payload.map_congr
  intro c hc
  rw [h c hc, hcontent c hc]

/-- Simplified exports do not show what normal forms drop. -/
theorem exported_normal (t : Term) (content : Datum) :
    (t.normal keep).exported .simplified content = t.exported .simplified content := by
  rw [exported, exported, label_normal]
  rfl

/-- A normal form has the same simplified export. -/
theorem datum_normal (t : Term) :
    (t.normal keep).datum .simplified = t.datum .simplified := by
  have hcontent : (t.normal keep).content .simplified = t.content .simplified := by
    apply rebuilds_normal.fold_eq
    intro _ p
    calc
      contentFrom .simplified (p.canonical.map fun c => (c.1.normal keep, c.2))
        = contentFrom .simplified (p.canonical.map fun c => c) := by
          apply contentFrom_congr
          · exact fun c _ => exported_normal c.1 c.2
          · exact fun _ _ => rfl
      _ = contentFrom .simplified p := by rw [Payload.map_id, contentFrom_canonical]
  rw [datum, datum, hcontent, exported_normal]

end Term

/-! ## Texts -/

namespace Python

variable {options : PythonOptions} {keep : TermInfo → TermInfo}

/-- A function on terms that keeps what a text shows of a child besides the
child's own text. -/
structure Preserves (f : Term → Term) : Prop where
  comment : ∀ t, (f t).comment = t.comment
  kind : ∀ t, (f t).kind = t.kind
  isElif : ∀ t, isElif (f t) = isElif t
  target : ∀ t text, target (f t, text) = target (t, text)

theorem isElif_of_kind_ne {t : Term} (h : t.kind ≠ .block) : isElif t = false := by
  obtain ⟨info, p⟩ := t
  cases p with
  | block => exact (h rfl).elim
  | _ => rfl

/-- A text shows the same of a rebuilt child if comments, the statements of blocks and
the names of targets stay. -/
theorem preserves_of_rebuilds {f : Term → Term} {erase : ∀ {α : Type}, Payload α → Payload α}
    (hf : Term.Rebuilds f keep erase) (hkeep : ∀ info, (keep info).comment = info.comment)
    (hblock : ∀ name (nodes : List Term), erase (.block name nodes) = .block name nodes)
    (htarget : ∀ info (p : Payload Term) text,
      target (.node info (erase p), text) = target (.node info p, text)) : Preserves f := by
  have hcomment : ∀ t : Term, (f t).comment = t.comment := by
    rintro ⟨info, p⟩
    rw [hf.node]
    exact hkeep info
  constructor
  · exact hcomment
  · exact hf.kind_eq
  · intro t
    by_cases hkind : t.kind = .block
    · obtain ⟨info, p⟩ := t
      cases p with
      | block name nodes =>
          rw [hf.node, Payload.map, hblock]
          rcases nodes with _ | ⟨only, _ | _⟩
          · rfl
          · change (decide ((f only).kind = .conditional) && (f only).comment.isEmpty) = _
            rw [hf.kind_eq, hcomment]
            rfl
          · rfl
      | _ => cases hkind
    · rw [isElif_of_kind_ne hkind, isElif_of_kind_ne (hf.kind_eq t ▸ hkind)]
  · rintro ⟨info, p⟩ text
    rw [hf.node, htarget]
    cases p <;> rfl

/-- Normal forms keep what a text shows of the children of a node. -/
theorem preserves_normal (hkeep : ∀ info, (keep info).comment = info.comment) :
    Preserves (Term.normal keep) :=
  preserves_of_rebuilds Term.rebuilds_normal hkeep (fun _ _ => rfl) fun _ p _ => by cases p <;> rfl

/-- The text of a node does not show what its canonical form drops. -/
theorem nodeText_canonical (info : TermInfo) (p : Payload Part) :
    nodeText options info p.canonical = nodeText options info p := by
  cases p with
  | literal value type => exact value.literal_canonical type
  | _ => rfl

/-- Children of two nodes with one payload that a text shows in the same way. -/
structure Alike {α : Type} (f f' : α → Part) (p : Payload α) : Prop where
  text : ∀ c ∈ p.children, (f c).2 = (f' c).2
  comment : ∀ c ∈ p.children, (f c).1.comment = (f' c).1.comment
  operand : ∀ c ∈ p.operands, operand (f c) = operand (f' c)
  target : ∀ c ∈ p.target?, target (f c) = target (f' c)
  isElif : ∀ c ∈ p.alternative?, isElif (f c).1 = isElif (f' c).1

/-- Nodes with one payload have the same text if their children are alike. -/
theorem nodeText_congr {α : Type} {f f' : α → Part} {p : Payload α} (h : Alike f f' p)
    {info info' : TermInfo} (hinfo : info.isMethod = info'.isMethod) :
    nodeText options info (p.map f) = nodeText options info' (p.map f') := by
  have hparallel : Parallel (· = ·) (fun _ s t => s = t) f f' (fun _ => 0) (fun _ => 0) p :=
    { text := fun c hc => coupled_eq_iff.mpr (h.text c hc)
      comment := h.comment
      operand := fun c hc => coupled_eq_iff.mpr (h.operand c hc)
      target := fun c hc => coupled_eq_iff.mpr (h.target c hc)
      isElif := h.isElif }
  apply coupled_eq_iff.mp
  exact coupled_nodeText_of_moduleText (comparison_eq coupled_self)
    (fun imports hbody => congrArg (moduleText imports) hbody) hparallel hinfo

/-- The text of a node does not change with what its children are besides their
texts, as far as a text does not show it. -/
theorem nodeText_map {f : Term → Term} (hf : Preserves f) {info info' : TermInfo}
    (hinfo : info'.isMethod = info.isMethod) (p : Payload Part) :
    nodeText options info' (p.map fun c => (f c.1, c.2)) = nodeText options info p := by
  have halike : Alike (fun c : Part => (f c.1, c.2)) (fun c => c) p := by
    constructor
    · exact fun _ _ => rfl
    · exact fun c _ => hf.comment c.1
    · intro c _
      rw [operand, operand, hf.kind]
    · exact fun c _ => hf.target c.1 c.2
    · exact fun c _ => hf.isElif c.1
  rw [nodeText_congr halike hinfo, Payload.map_id]

/-- A normal form that keeps comments and the places of methods has the same
text. -/
theorem text_normal (hcomment : ∀ info, (keep info).comment = info.comment)
    (hmethod : ∀ info, (keep info).isMethod = info.isMethod) (t : Term) :
    text options (t.normal keep) = text options t := by
  apply Term.rebuilds_normal.fold_eq
  intro info p
  rw [nodeText_map (preserves_normal hcomment) (hmethod info), nodeText_canonical]

/-- The text of a term is that of its normal form. -/
theorem text_shown (t : Term) : text options (t.normal TermInfo.shown) = text options t := by
  apply text_normal
  · exact fun _ => rfl
  · exact fun _ => rfl

end Python

/-! ## Normal forms of nodes -/

namespace Tree

open Relation

variable {tree tree' : Tree} {id : NodeId} {g g' : NodeId → Term} {keep : TermInfo → TermInfo}

/-- Nodes of two trees are rebuilt to one term if the same stays of the payloads
below them, up to names of nodes, and of the other attributes. -/
theorem Cuts.rebuilt_eq {r : Term → Term} {erase : ∀ {α : Type}, Payload α → Payload α}
    (hr : Term.Rebuilds r keep erase) (hg : tree.Cuts g) (hg' : tree'.Cuts g')
    {f : NodeId → NodeId}
    (hf : ∀ n p, tree.payload n = .ok p →
      ∃ p', tree'.payload (f n) = .ok p' ∧ erase p' = (erase p).map f)
    (hid : tree.Has id)
    (hkeep : ∀ n, ReflTransGen tree.ChildOf n id → keep (g n).info = keep (g' (f n)).info) :
    r (g id) = r (g' (f id)) := by
  revert hkeep
  refine hg.linked.induction (P := fun id =>
    (∀ n, ReflTransGen tree.ChildOf n id → keep (g n).info = keep (g' (f n)).info) →
      r (g id) = r (g' (f id))) ?_ hid
  intro id hid ih hkeep
  obtain ⟨node, hnode⟩ := has_iff.mp hid
  obtain ⟨p', hp', herase⟩ :=
    hf id node.payload (payload_eq_ok_iff.mpr ⟨node, hnode, rfl⟩)
  obtain ⟨node', hnode', rfl⟩ := payload_eq_ok_iff.mp hp'
  have hroot := hkeep id ReflTransGen.refl
  rw [hg.node_eq hnode, hg'.node_eq hnode', Term.info, Term.info] at hroot
  rw [hg.node_eq hnode, hg'.node_eq hnode', hr.node, hr.node, hroot, Payload.map_map,
    Payload.map_map, hr.map, hr.map, herase, Payload.map_map]
  congr 1
  apply Payload.map_congr
  intro c hc
  rw [hr.children] at hc
  have hchild := hg.linked.childOf_of_mem hnode hc
  exact ih c hchild fun n hn => hkeep n (hn.tail hchild)

/-- Nodes of two trees have one normal form if the trees have the same payloads
below them, up to names of nodes, and the same of the other attributes as far as
it is kept. -/
theorem Cuts.normal_eq (hg : tree.Cuts g) (hg' : tree'.Cuts g') {f : NodeId → NodeId}
    (hf : ∀ n p, tree.payload n = .ok p → tree'.payload (f n) = .ok (p.map f))
    (hid : tree.Has id)
    (hkeep : ∀ n, ReflTransGen tree.ChildOf n id → keep (g n).info = keep (g' (f n)).info) :
    (g id).normal keep = (g' (f id)).normal keep :=
  Cuts.rebuilt_eq Term.rebuilds_normal hg hg'
    (fun n p hp => ⟨_, hf n p hp, Payload.canonical_map f p⟩) hid hkeep

/-- Nodes of two trees with the same payloads below them have the same
simplified export. -/
theorem Cuts.datum_simplified_eq (hg : tree.Cuts g) (hg' : tree'.Cuts g')
    {f : NodeId → NodeId} (hf : ∀ n p, tree.payload n = .ok p → tree'.payload (f n) = .ok (p.map f))
    (hid : tree.Has id) :
    (g id).datum .simplified = (g' (f id)).datum .simplified := by
  let bare : TermInfo → TermInfo := fun _ => ⟨⟨0, 0⟩, 0, .unknown, "", false⟩
  have hnormal : (g id).normal bare = (g' (f id)).normal bare :=
    hg.normal_eq hg' hf hid fun _ _ => rfl
  rw [← Term.datum_normal, hnormal, Term.datum_normal]

end Tree

end TypedSyntax
