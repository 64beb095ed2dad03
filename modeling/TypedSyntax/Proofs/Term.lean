import TypedSyntax.Term

/-!
# Induction over terms

A term inherits a property from the terms in its child slots, whatever the
form of the slots.
-/

namespace TypedSyntax.Term

/-- Induction over terms: a node inherits a property from its children. -/
@[elab_as_elim]
theorem induction {motive : Term → Prop}
    (node : ∀ info p, (∀ c ∈ p.children, motive c) → motive (.node info p)) (t : Term) :
    motive t := by
  apply Term.rec (motive_1 := motive) (motive_2 := fun p => ∀ c ∈ p.children, motive c)
    (motive_3 := fun cs => ∀ c ∈ cs, motive c)
    (motive_4 := fun entries => ∀ e ∈ entries, motive e.1 ∧ motive e.2)
    (motive_5 := fun c? => ∀ c ∈ c?.toList, motive c)
    (motive_6 := fun e => motive e.1 ∧ motive e.2)
  case node => exact node
  case mapping =>
    intro entries _ ih c hc
    obtain ⟨e, he, hc⟩ := List.mem_flatMap.mp hc
    rcases List.mem_cons.mp hc with rfl | hc
    · exact (ih e he).1
    · exact List.mem_singleton.mp hc ▸ (ih e he).2
  -- The motives of payloads and lists follow `children`, slot by slot.
  all_goals simp +contextual [Payload.children, or_imp, forall_and]

end TypedSyntax.Term
