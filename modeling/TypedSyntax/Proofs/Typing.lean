import TypedSyntax.Proofs.Outcome
import TypedSyntax.Tree.Check

/-!
# Typing judgements

The typing rules as judgements on types. Each comes with a theorem that the
function which computes the type decides it.
-/

namespace TypedSyntax

namespace DataType

theorem isAny_iff {t : DataType} : t.isAny = true ↔ t = .any := by
  cases t <;> simp [isAny]

theorem isBoolean_iff {t : DataType} : t.isBoolean = true ↔ t = .boolean := by
  cases t <;> simp [isBoolean]

/-- The numeric types are those that have a width. -/
theorem isNumeric_iff {t : DataType} : t.isNumeric = true ↔ ∃ n, t.byteWidth? = some n := by
  rw [isNumeric, Option.isSome_iff_exists]

theorem not_isAny_of_byteWidth? {t : DataType} {n : Nat} (h : t.byteWidth? = some n) :
    t.isAny = false ∧ t.isString = false := by
  cases t <;> simp [byteWidth?] at h <;> exact ⟨rfl, rfl⟩

/-- The type that all the types of a list agree on, `any` when they differ. -/
inductive Common : List DataType → DataType → Prop
  | same {t ts} : (∀ s ∈ ts, s = t) → Common (t :: ts) t
  | mixed {t s ts} : s ∈ ts → s ≠ t → Common (t :: ts) .any

/-- The common type of some types is the one that all of them are, or any. -/
theorem common?_eq_some_iff {ts : List DataType} {t : DataType} :
    common? ts = some t ↔ Common ts t := by
  cases ts with
  | nil =>
      constructor
      · intro h
        cases h
      · intro h
        cases h
  | cons first rest =>
      simp only [common?, Option.some.injEq]
      constructor
      · intro h
        by_cases hall : rest.all (· == first) = true
        · rw [if_pos hall] at h
          subst h
          exact Common.same (by simpa using hall)
        · rw [if_neg hall] at h
          subst h
          simp only [List.all_eq_true, beq_iff_eq, not_forall] at hall
          obtain ⟨s, hs, hne⟩ := hall
          exact Common.mixed hs hne
      · intro h
        cases h with
        | same hall => rw [if_pos (by simpa using hall)]
        | mixed hs hne =>
            rw [if_neg]
            intro hall
            exact hne (by simpa using List.all_eq_true.mp hall _ hs)

theorem common?_eq_none_iff {ts : List DataType} : common? ts = none ↔ ts = [] := by
  cases ts <;> simp [common?]

/-- The types over whose values a loop may run, with the type of the
elements. -/
inductive Iterates : DataType → DataType → Prop
  | list {t} : Iterates (.list t) t
  | set {t} : Iterates (.set t) t
  | tuple {ts t} : Common ts t → Iterates (.tuple ts) t
  | emptyTuple : Iterates (.tuple []) .any
  | map {k v} : Iterates (.map k v) k
  | unspecified {t} : t ∈ [bareList, bareSet, bareMap, any] → Iterates t .any
  | text {t} : t ∈ [string, utf8String] → Iterates t .utf8Char

/-- The element type is that of an iteration. -/
theorem element_eq_ok_iff {t e : DataType} : t.element = .ok e ↔ Iterates t e := by
  constructor
  · intro h
    cases t with
    | list | set | map =>
        obtain rfl := Except.ok.inj h
        constructor
    | bareList | bareSet | bareMap | any =>
        obtain rfl := Except.ok.inj h
        exact Iterates.unspecified (by simp)
    | string | utf8String =>
        obtain rfl := Except.ok.inj h
        exact Iterates.text (by simp)
    | tuple ts =>
        obtain rfl := Except.ok.inj h
        cases hc : common? ts with
        | none =>
            obtain rfl := common?_eq_none_iff.mp hc
            exact Iterates.emptyTuple
        | some t => exact Iterates.tuple (common?_eq_some_iff.mp hc)
    | _ => cases h
  · intro h
    cases h with
    | list | set | map | emptyTuple => rfl
    | tuple hc => simp [element, common?_eq_some_iff.mpr hc]
    | unspecified ht | text ht =>
        simp only [List.mem_cons, List.not_mem_nil, or_false] at ht
        rcases ht with rfl | rfl | rfl | rfl <;> rfl

/-- The wider of two numeric types is chosen, and the first of equally wide ones. -/
theorem promote_eq_ok_iff {a b c : DataType} :
    a.promote b = .ok c ↔ ∃ m n, a.byteWidth? = some m ∧ b.byteWidth? = some n ∧
      c = if m < n then b else a := by
  unfold promote
  cases a.byteWidth? <;> cases b.byteWidth? <;> simp [eq_comm]

end DataType

/-- The operands that a unary operator admits, and its result. -/
inductive UnaryTyping : UnaryOperator → DataType → DataType → Prop
  | negation : UnaryTyping .not .boolean .boolean
  | anyNegation : UnaryTyping .not .any .boolean
  | complement {signed width} : UnaryTyping .bitNot (.int signed width) (.int signed width)
  | sign {op t} : op ∈ [.neg, .pos] → t.isNumeric = true → UnaryTyping op t t
  | any {op} : op ≠ .not → UnaryTyping op .any .any

/-- The type of an operation on one operand obeys its rule. -/
theorem UnaryOperator.resultType_eq_ok_iff {op : UnaryOperator} {t r : DataType} :
    op.resultType t = .ok r ↔ UnaryTyping op t r := by
  constructor
  · intro h
    cases op with
    | not =>
        simp only [resultType] at h
        split at h
        · next ht =>
          obtain rfl := Except.ok.inj h
          simp only [Bool.or_eq_true, DataType.isBoolean_iff, DataType.isAny_iff] at ht
          rcases ht with rfl | rfl
          · exact UnaryTyping.negation
          · exact UnaryTyping.anyNegation
        · cases h
    | bitNot =>
        simp only [resultType] at h
        split at h
        · next ht =>
          obtain rfl := Except.ok.inj h
          cases t with
          | int signed width => exact UnaryTyping.complement
          | any => exact UnaryTyping.any (by simp)
          | _ => cases ht
        · cases h
    | neg | pos =>
        simp only [resultType] at h
        split at h
        · next ht =>
          obtain rfl := Except.ok.inj h
          rcases Bool.or_eq_true_iff.mp ht with ht | ht
          · exact UnaryTyping.sign (by simp) ht
          · obtain rfl := DataType.isAny_iff.mp ht
            exact UnaryTyping.any (by simp)
        · cases h
  · intro h
    cases h with
    | negation | anyNegation | complement => rfl
    | sign hop ht =>
        simp only [List.mem_cons, List.not_mem_nil, or_false] at hop
        rcases hop with rfl | rfl <;> simp [resultType, ht]
    | any hop => cases op <;> simp [resultType, DataType.isAny] at hop ⊢

/-- The operands that a binary operator admits, and its result. -/
inductive BinaryTyping : BinaryOperator → DataType → DataType → DataType → Prop
  | anyLeft {op t} : op.operatorClass = .arithmetic → BinaryTyping op .any t t
  | anyRight {op t} : op.operatorClass = .arithmetic → BinaryTyping op t .any t
  | any {op a b} : op.operatorClass ≠ .arithmetic → a = .any ∨ b = .any →
      BinaryTyping op a b .boolean
  | concatenation {t} : t.isString = true → BinaryTyping .add t t t
  | widenLeft {op a b m n} : op.operatorClass = .arithmetic → a.byteWidth? = some m →
      b.byteWidth? = some n → m < n → BinaryTyping op a b b
  | widenRight {op a b m n} : op.operatorClass = .arithmetic → a.byteWidth? = some m →
      b.byteWidth? = some n → n ≤ m → BinaryTyping op a b a
  | equality {op t} : op ∈ [.eq, .ne] → BinaryTyping op t t .boolean
  | order {op a b} : op.operatorClass = .comparison → a.isNumeric = true →
      b.isNumeric = true → BinaryTyping op a b .boolean
  | logical {op} : op.operatorClass = .logical → BinaryTyping op .boolean .boolean .boolean

namespace BinaryOperator

variable {op : BinaryOperator} {a b r : DataType}

private theorem typing_of_checkedType (h : op.checkedType a b = .ok r) :
    BinaryTyping op a b r := by
  unfold checkedType at h
  cases hop : op.operatorClass with
  | arithmetic =>
      simp only [hop] at h
      split at h
      · next htext =>
        split at h
        · next hadd =>
          obtain ⟨rfl, rfl⟩ := hadd
          obtain rfl := Except.ok.inj h
          exact BinaryTyping.concatenation (Bool.and_eq_true_iff.mp htext).1
        · cases h
      · obtain ⟨m, n, ha, hb, rfl⟩ := DataType.promote_eq_ok_iff.mp h
        by_cases hmn : m < n
        · rw [if_pos hmn]
          exact BinaryTyping.widenLeft hop ha hb hmn
        · rw [if_neg hmn]
          exact BinaryTyping.widenRight hop ha hb (Nat.le_of_not_lt hmn)
  | comparison =>
      simp only [hop] at h
      split at h
      · next heq =>
        obtain ⟨hequality, rfl⟩ := heq
        obtain rfl := Except.ok.inj h
        exact BinaryTyping.equality (by simpa using hequality)
      · obtain ⟨c, hc, rfl⟩ := map_eq_ok_iff.mp h
        obtain ⟨m, n, ha, hb, -⟩ := DataType.promote_eq_ok_iff.mp hc
        exact BinaryTyping.order hop (DataType.isNumeric_iff.mpr ⟨m, ha⟩)
          (DataType.isNumeric_iff.mpr ⟨n, hb⟩)
  | logical =>
      simp only [hop] at h
      split at h
      · cases h
      split at h
      · cases h
      next ha hb =>
      simp only [Bool.not_eq_true', Bool.not_eq_false, DataType.isBoolean_iff] at ha hb
      subst ha hb
      obtain rfl := Except.ok.inj h
      exact BinaryTyping.logical hop

/-- The type of an operation on two operands obeys its rule. -/
theorem resultType_eq_ok_iff : op.resultType a b = .ok r ↔ BinaryTyping op a b r := by
  unfold resultType
  constructor
  · intro h
    split at h
    · next hany =>
      simp only [Bool.or_eq_true, DataType.isAny_iff] at hany
      cases hop : op.operatorClass with
      | arithmetic =>
          simp only [hop] at h
          obtain rfl := Except.ok.inj h
          by_cases ha : a = .any
          · subst ha
            exact BinaryTyping.anyLeft hop
          · obtain rfl := hany.resolve_left ha
            rw [if_neg (by simpa [DataType.isAny_iff] using ha)]
            exact BinaryTyping.anyRight hop
      | comparison | logical =>
          simp only [hop] at h
          obtain rfl := Except.ok.inj h
          exact BinaryTyping.any (by simp [hop]) hany
    · exact typing_of_checkedType h
  · intro h
    cases h with
    | anyLeft hop => simp [hop, DataType.isAny]
    | anyRight hop =>
        by_cases ha : a = .any <;> simp [hop, DataType.isAny_iff, ha]
    | any hop hany =>
        rw [if_pos (by simpa [DataType.isAny_iff] using hany)]
        cases hclass : op.operatorClass with
        | arithmetic => exact (hop hclass).elim
        | comparison | logical => rfl
    | concatenation ht => cases a <;> simp [DataType.isString] at ht <;> rfl
    | widenLeft hop ha hb hmn =>
        have hpromote := DataType.promote_eq_ok_iff.mpr ⟨_, _, ha, hb, (if_pos hmn).symm⟩
        obtain ⟨hany, htext⟩ := DataType.not_isAny_of_byteWidth? ha
        simp [checkedType, hop, hany, htext, DataType.not_isAny_of_byteWidth? hb, hpromote]
    | widenRight hop ha hb hmn =>
        have hpromote := DataType.promote_eq_ok_iff.mpr
          ⟨_, _, ha, hb, (if_neg (Nat.not_lt.mpr hmn)).symm⟩
        obtain ⟨hany, htext⟩ := DataType.not_isAny_of_byteWidth? ha
        simp [checkedType, hop, hany, htext, DataType.not_isAny_of_byteWidth? hb, hpromote]
    | equality hop =>
        simp only [List.mem_cons, List.not_mem_nil, or_false] at hop
        rcases hop with rfl | rfl <;> cases a <;>
          simp [checkedType, operatorClass, DataType.isAny]
    | order hop ha hb =>
        obtain ⟨m, ha⟩ := DataType.isNumeric_iff.mp ha
        obtain ⟨n, hb⟩ := DataType.isNumeric_iff.mp hb
        have hpromote := DataType.promote_eq_ok_iff.mpr ⟨m, n, ha, hb, rfl⟩
        simp [checkedType, hop, DataType.not_isAny_of_byteWidth? ha,
          DataType.not_isAny_of_byteWidth? hb, hpromote, Except.map]
    | logical hop => simp [checkedType, hop, DataType.isAny, DataType.isBoolean]

end BinaryOperator

end TypedSyntax
