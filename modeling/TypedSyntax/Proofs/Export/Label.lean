import TypedSyntax.Export
import TypedSyntax.Proofs.Tree.Terms

/-!
# Exports without errors

An export fails only at a function whose head is no prototype. Wherever there is none,
it is a map whose key is the label of the node and whose content follows from the
contents of the children.
-/

namespace TypedSyntax

theorem Payload.map_id {α : Type} (p : Payload α) : p.map (fun c => c) = p := by
  cases p <;> simp [map]

theorem Payload.map_map {α β γ : Type} (f : β → γ) (g : α → β) (p : Payload α) :
    (p.map g).map f = p.map fun c => f (g c) := by
  cases p <;> simp [map, Function.comp_def]

/-- Only the children matter to what a payload is mapped to. -/
theorem Payload.map_congr {α β : Type} {f g : α → β} {p : Payload α}
    (h : ∀ c ∈ p.children, f c = g c) : p.map f = p.map g := by
  let visit : α → Except Empty β := fun c => .ok (f c)
  have hf : p.traverse visit = .ok (p.map f) := traverse_eq_ok fun _ _ => rfl
  have hg : p.traverse visit = .ok (p.map g) :=
    traverse_eq_ok fun c hc => congrArg Except.ok (h c hc)
  exact Except.ok.inj (hf.symm.trans hg)

/-- The head of a function is a prototype. -/
def Payload.Headed (p : Payload Term) : Prop :=
  ∀ head body, p = .function head body → head.kind = .prototype

namespace Term

variable {detail : Detail} {info : TermInfo} {p : Payload Term}

/-- The tag of a term that has one. -/
def label (t : Term) : String :=
  t.tag.toOption.getD ""

/-- The export of a node with a given content. -/
def exported (detail : Detail) (t : Term) (content : Datum) : Datum :=
  t.tagged detail t.label content

/-- The content of a node, from its children and their contents. -/
def contentFrom (detail : Detail) (payload : Payload (Term × Datum)) : Datum :=
  contentOf (payload.map fun child => ⟨child.2, child.1.exported detail child.2⟩)

/-- The content of a node. -/
def content (detail : Detail) : Term → Datum :=
  fold fun _ payload => contentFrom detail payload

/-- The export of a term in which the head of every function is a prototype. -/
def datum (detail : Detail) (t : Term) : Datum :=
  t.exported detail (t.content detail)

/-- The content of a node follows from those of its children. -/
theorem content_node (detail : Detail) (info : TermInfo) (p : Payload Term) :
    (node info p).content detail = contentFrom detail (p.map fun c => (c, c.content detail)) :=
  fold_node _ info p

/-- The content of a node shows what is exported of its children. -/
theorem content_eq_contentOf (detail : Detail) (info : TermInfo) (p : Payload Term) :
    (node info p).content detail =
      contentOf (p.map fun c => ⟨c.content detail, c.datum detail⟩) := by
  rw [content_node, contentFrom, Payload.map_map]
  rfl

/-- Only a function needs a head to have a tag. -/
theorem tag_eq_label {t : Term} (h : t.payload.Headed) : t.tag = .ok t.label := by
  obtain ⟨info, p⟩ := t
  cases p with
  | collection kind => cases kind <;> rfl
  | clause _ _ _ isAsync => cases isAsync <;> rfl
  | comprehension kind => cases kind <;> rfl
  | function head body =>
      obtain ⟨_, q⟩ := head
      have hkind : q.kind = .prototype := h _ _ rfl
      cases q with
      | prototype => rfl
      | _ => cases hkind
  | _ => rfl

/-- A node is exported without an error if its children are and no head is missing. -/
theorem shown_eq (hp : p.Headed)
    (h : ∀ c ∈ p.children, c.shown detail = .ok ⟨c.content detail, c.datum detail⟩) :
    (node info p).shown detail =
      .ok ⟨(node info p).content detail, (node info p).datum detail⟩ := by
  let children : Payload (Term × Except NodeError Shown) := p.map fun c => (c, c.shown detail)
  have hterms : children.map (·.1) = p := by
    rw [Payload.map_map, Payload.map_id]
  have hchildren : children.traverse (·.2) =
      .ok (p.map fun c => ⟨c.content detail, c.datum detail⟩) := by
    have hshown : children.traverse (·.2) =
        .ok (children.map fun c => ⟨c.1.content detail, c.1.datum detail⟩) := by
      apply Payload.traverse_eq_ok
      rw [Payload.children_map, List.forall_mem_map]
      exact h
    rw [hshown, Payload.map_map]
  rw [shown, fold_node]
  change shownFrom detail info children = _
  rw [shownFrom, hterms, tag_eq_label (t := node info p) hp, hchildren]
  simp only [ok_bind, ← content_eq_contentOf detail info]
  rfl

end Term

end TypedSyntax
