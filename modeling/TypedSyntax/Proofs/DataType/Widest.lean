import TypedSyntax.Proofs.Typing

/-!
# The widest type

The type of an arithmetic operation is the first of the widest types below it, where `any` counts
for nothing. This does not depend on the grouping.
-/

namespace TypedSyntax.DataType

/-- The types on which arithmetic is done. -/
def IsOperand (t : DataType) : Prop :=
  t.isNumeric = true ∨ t = .any

/-- The first of the widest types of a list, or `any` if there is no other. -/
inductive Widest (ts : List DataType) : DataType → Prop
  | any : (∀ t ∈ ts, t = .any) → Widest ts .any
  | first (before after) {t width} : ts = before ++ t :: after → t.byteWidth? = some width →
      (∀ s ∈ before, ∀ n ∈ s.byteWidth?, n < width) →
      (∀ s ∈ after, ∀ n ∈ s.byteWidth?, n ≤ width) → Widest ts t

variable {ts us : List DataType} {t r a b : DataType} {width : Nat}

theorem isOperand_of_byteWidth? (h : t.byteWidth? = some width) : t.IsOperand :=
  .inl (isNumeric_iff.mpr ⟨width, h⟩)

namespace Widest

theorem isOperand (h : Widest ts t) : t.IsOperand := by
  cases h with
  | any => exact .inr rfl
  | first _ _ _ hwidth => exact isOperand_of_byteWidth? hwidth

theorem singleton (h : t.IsOperand) : Widest [t] t := by
  rcases h with h | rfl
  · obtain ⟨width, hwidth⟩ := isNumeric_iff.mp h
    exact first [] [] rfl hwidth (List.forall_mem_nil _) (List.forall_mem_nil _)
  · exact any (List.forall_mem_singleton.mpr rfl)

theorem eq_any (h : Widest ts .any) : ∀ t ∈ ts, t = .any := by
  cases h with
  | any hall => exact hall
  | first _ _ _ hwidth => cases hwidth

theorem le (h : Widest ts t) (hwidth : t.byteWidth? = some width) :
    ∀ s ∈ ts, ∀ n ∈ s.byteWidth?, n ≤ width := by
  cases h with
  | any => cases hwidth
  | first before after hts hsame hbefore hafter =>
      obtain rfl := Option.some.inj (hsame.symm.trans hwidth)
      subst hts
      intro s hs n hn
      rcases List.mem_append.mp hs with hs | hs
      · exact Nat.le_of_lt (hbefore s hs n hn)
      rcases List.mem_cons.mp hs with rfl | hs
      · exact Nat.le_of_eq (Option.mem_unique hn hwidth)
      · exact hafter s hs n hn

/-- Nothing as wide stands in front of the first of the widest types. -/
theorem head_eq {mid after after' : List DataType} (hwidth : t.byteWidth? = some width)
    (hmid : ∀ s ∈ mid, ∀ n ∈ s.byteWidth?, n < width) (h : t :: after = mid ++ r :: after') :
    t = r := by
  cases mid with
  | nil => exact (List.cons.inj h).1
  | cons s mid =>
      obtain ⟨rfl, -⟩ := List.cons.inj h
      exact absurd (hmid t List.mem_cons_self width hwidth) (Nat.lt_irrefl width)

/-- A list has only one widest type. -/
theorem unique (h : Widest ts t) (h' : Widest ts r) : t = r := by
  cases h with
  | any hall =>
      cases h' with
      | any => rfl
      | first _ _ hts => exact (hall r (by simp [hts])).symm
  | @first before after _ width hts hwidth hbefore hafter =>
      cases h' with
      | any hall => exact hall t (by simp [hts])
      | @first before' after' _ width' hts' hwidth' hbefore' hafter' =>
          have ht : t ∈ ts := by simp [hts]
          have hr : r ∈ ts := by simp [hts']
          have hle := (first _ _ hts hwidth hbefore hafter).le hwidth r hr _ hwidth'
          have hge := (first _ _ hts' hwidth' hbefore' hafter').le hwidth' t ht _ hwidth
          obtain rfl := Nat.le_antisymm hge hle
          rcases List.append_eq_append_iff.mp (hts.symm.trans hts') with
            ⟨mid, rfl, hmid⟩ | ⟨mid, rfl, hmid⟩
          · exact head_eq hwidth (List.forall_mem_append.mp hbefore').2 hmid
          · exact (head_eq hwidth' (List.forall_mem_append.mp hbefore).2 hmid).symm

/-- Narrower types in front change nothing. -/
theorem append_left (h : Widest us t) (hwidth : t.byteWidth? = some width)
    (hts : ∀ s ∈ ts, ∀ n ∈ s.byteWidth?, n < width) : Widest (ts ++ us) t := by
  cases h with
  | any => cases hwidth
  | first before after hus hwidth' hbefore hafter =>
      obtain rfl := Option.some.inj (hwidth'.symm.trans hwidth)
      exact first (ts ++ before) after (by rw [hus, List.append_assoc]) hwidth
        (List.forall_mem_append.mpr ⟨hts, hbefore⟩) hafter

/-- Types behind that are not wider change nothing. -/
theorem append_right (h : Widest ts t) (hwidth : t.byteWidth? = some width)
    (hus : ∀ s ∈ us, ∀ n ∈ s.byteWidth?, n ≤ width) : Widest (ts ++ us) t := by
  cases h with
  | any => cases hwidth
  | first before after hts hwidth' hbefore hafter =>
      obtain rfl := Option.some.inj (hwidth'.symm.trans hwidth)
      exact first before (after ++ us) (by rw [hts, List.append_assoc, List.cons_append]) hwidth
        hbefore (List.forall_mem_append.mpr ⟨hafter, hus⟩)

variable {op : BinaryOperator}

/-- The result of an arithmetic operation is the widest type of both operands' types. -/
theorem binary (ha : Widest ts a) (hb : Widest us b) (hop : op.operatorClass = .arithmetic)
    (h : BinaryTyping op a b r) : Widest (ts ++ us) r := by
  have hwidthless : ∀ {ts : List DataType} {P : Nat → Prop}, Widest ts .any →
      ∀ s ∈ ts, ∀ n ∈ s.byteWidth?, P n := by
    intro ts P h s hs n hn
    rw [h.eq_any s hs] at hn
    cases hn
  cases h with
  | anyLeft =>
      rcases hb.isOperand with hnumeric | rfl
      · obtain ⟨width, hwidth⟩ := isNumeric_iff.mp hnumeric
        exact hb.append_left hwidth (hwidthless ha)
      · exact any (List.forall_mem_append.mpr ⟨ha.eq_any, hb.eq_any⟩)
  | anyRight =>
      rcases ha.isOperand with hnumeric | rfl
      · obtain ⟨width, hwidth⟩ := isNumeric_iff.mp hnumeric
        exact ha.append_right hwidth (hwidthless hb)
      · exact any (List.forall_mem_append.mpr ⟨ha.eq_any, hb.eq_any⟩)
  | widenLeft _ hm hn hlt =>
      exact hb.append_left hn fun s hs k hk => Nat.lt_of_le_of_lt (ha.le hm s hs k hk) hlt
  | widenRight _ hm hn hle =>
      exact ha.append_right hm fun s hs k hk => Nat.le_trans (hb.le hn s hs k hk) hle
  | concatenation htext =>
      rcases ha.isOperand with hnumeric | rfl
      · obtain ⟨width, hwidth⟩ := isNumeric_iff.mp hnumeric
        rw [(not_isAny_of_byteWidth? hwidth).2] at htext
        cases htext
      · cases htext
  | any hclass => exact (hclass hop).elim
  | equality hequality =>
      simp only [List.mem_cons, List.not_mem_nil, or_false] at hequality
      rcases hequality with rfl | rfl <;> cases hop
  | order hclass | logical hclass => cases hclass.symm.trans hop

/-- A sign does not change the type. -/
theorem sign {op : UnaryOperator} (h : Widest ts t) (hop : op ∈ [.neg, .pos])
    (htyping : UnaryTyping op t r) : Widest ts r := by
  cases htyping with
  | sign | any => exact h
  | negation | anyNegation | complement => simp at hop

end Widest

/-! ## The operations on operands -/

theorem IsOperand.exists_binary {op : BinaryOperator} (ha : a.IsOperand) (hb : b.IsOperand)
    (hop : op.operatorClass = .arithmetic) : ∃ r, BinaryTyping op a b r := by
  rcases ha with ha | rfl
  · rcases hb with hb | rfl
    · obtain ⟨m, hm⟩ := isNumeric_iff.mp ha
      obtain ⟨n, hn⟩ := isNumeric_iff.mp hb
      rcases Nat.lt_or_ge m n with hlt | hge
      · exact ⟨b, .widenLeft hop hm hn hlt⟩
      · exact ⟨a, .widenRight hop hm hn hge⟩
    · exact ⟨a, .anyRight hop⟩
  · exact ⟨b, .anyLeft hop⟩

theorem IsOperand.sign {op : UnaryOperator} (h : t.IsOperand) (hop : op ∈ [.neg, .pos]) :
    UnaryTyping op t t := by
  rcases h with h | rfl
  · exact .sign hop h
  · apply UnaryTyping.any
    rintro rfl
    simp at hop

end TypedSyntax.DataType
