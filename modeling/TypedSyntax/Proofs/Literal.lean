import TypedSyntax.Proofs.Export.Normal
import TypedSyntax.Proofs.Tree.Literal

/-!
# Exported literals

Two values of one type with the same export have the same canonical form. The
type is needed: the date and the text of the same characters, for instance, are
exported alike.
-/

namespace TypedSyntax

/-- Infinities of the same sign are the same. -/
theorem Double.eq_of_infinite {x y : Double} (hx : x.isFinite = false) (hy : y.isFinite = false)
    (hx' : x.isNaN = false) (hy' : y.isNaN = false) (h : x.isNegative = y.isNegative) : x = y := by
  obtain ⟨x⟩ := x
  obtain ⟨y⟩ := y
  have hsign : signWeight ≤ x.toNat ↔ signWeight ≤ y.toNat := decide_eq_decide.mp h
  simp only [isFinite, bne_eq_false_iff_eq, isNaN, Bool.and_eq_false_iff, beq_eq_false_iff_ne,
    ne_eq, exponentField, fractionField, signWeight, exponentWeight] at *
  have hxlt := x.isLt
  have hylt := y.isLt
  congr 1
  apply BitVec.eq_of_toNat_eq
  omega

namespace LiteralValue

variable {v v' : LiteralValue} {type : DataType}

/-- The text of an integer tells the integer. -/
theorem eq_of_toString_eq {i j : Int} (h : toString i = toString j) : i = j := by
  have hsign : ∀ m n : Nat, m.repr ≠ "-" ++ n.repr := by
    intro m n h
    have hmem : '-' ∈ m.repr.toList := by
      rw [h, String.toList_append]
      exact List.mem_cons_self
    rw [Nat.toList_repr] at hmem
    cases Nat.isDigit_of_mem_toDigits (by decide) (by decide) hmem
  cases i with
  | ofNat m =>
      cases j with
      | ofNat n => exact congrArg Int.ofNat (eq_of_repr_eq h)
      | negSucc n => exact (hsign m _ h).elim
  | negSucc m =>
      cases j with
      | ofNat n => exact (hsign n _ h.symm).elim
      | negSucc n =>
          have hrepr := eq_of_repr_eq ((String.append_right_inj "-").mp h)
          exact congrArg Int.negSucc (Nat.succ.inj hrepr)

theorem integerDatum_injective : Function.Injective integerDatum := by
  intro i j h
  unfold integerDatum at h
  split at h <;> split at h
  · exact Datum.int.inj h
  · cases h
  · cases h
  · exact eq_of_toString_eq (Datum.text.inj h)

/-- Numbers with the same export have the same canonical form. -/
theorem canonical_eq_of_floatDatum {x y : Double} (h : floatDatum x = floatDatum y) :
    x.canonical = y.canonical := by
  unfold floatDatum at h
  split at h <;> split at h
  · rw [Datum.float.inj h]
  · cases h
  · cases h
  next hx hy =>
  have hname := Datum.text.inj h
  unfold Datum.nonFiniteName at hname
  unfold Double.canonical
  cases hx' : x.isNaN <;> cases hy' : y.isNaN <;> rw [hx', hy'] at hname
  · rw [if_neg Bool.false_ne_true, if_neg Bool.false_ne_true]
    apply Double.eq_of_infinite (Bool.eq_false_iff.mpr hx) (Bool.eq_false_iff.mpr hy)
      hx' hy'
    cases hsign : x.isNegative <;> cases hsign' : y.isNegative <;> simp [hsign, hsign'] at hname ⊢
  · cases hsign : x.isNegative <;> simp [hsign] at hname
  · cases hsign : y.isNegative <;> simp [hsign] at hname
  · rfl

/-- The canonical form of an integer. -/
def ofInteger (i : Int) : LiteralValue :=
  if i < 0 then .int (BitVec.ofInt 128 i) else .uint (BitVec.ofInt 128 i)

theorem canonical_int (w : BitVec 128) : (LiteralValue.int w).canonical = ofInteger w.toInt := by
  rw [canonical, ofInteger, BitVec.ofInt_toInt]

theorem canonical_uint (w : BitVec 128) :
    (LiteralValue.uint w).canonical = ofInteger w.toNat := by
  rw [ofInteger, if_neg (by omega), BitVec.ofInt_natCast, BitVec.ofNat_toNat, BitVec.setWidth_eq]
  rfl

/-- Which values are literals of which types. -/
inductive Belongs : LiteralValue → DataType → Prop
  | bool {b} : Belongs (.bool b) .boolean
  | int {w signed width} : Belongs (.int w) (.int signed width)
  | uint {w signed width} : Belongs (.uint w) (.int signed width)
  | float {x width} : Belongs (.float x) (.float width)
  | complex {x y width} : Belongs (.complex x y) (.complex width)
  | string {s} : Belongs (.text s) .string
  | utf8String {s} : Belongs (.text s) .utf8String
  | utf8Char {c} : Belongs (.char c) .utf8Char
  | date {s} : Belongs (.temporal s) .date
  | time {s} : Belongs (.temporal s) .time
  | dateTime {s} : Belongs (.temporal s) .dateTime
  | timestamp {s} : Belongs (.temporal s) .timestamp

theorem belongs_of_check (h : v.check type = .ok ()) : v.Belongs type := by
  unfold check at h
  split at h
  all_goals first | constructor | cases h

/-- Values of one type with the same export have the same canonical form. -/
theorem Belongs.canonical_eq (hv : v.Belongs type) (hv' : v'.Belongs type)
    (h : v.toDatum = v'.toDatum) : v.canonical = v'.canonical := by
  cases hv with
  | bool =>
      cases hv'
      rw [Datum.bool.inj h]
  | int =>
      cases hv' with
      | int => rw [canonical_int, canonical_int, integerDatum_injective h]
      | uint => rw [canonical_int, canonical_uint, integerDatum_injective h]
  | uint =>
      cases hv' with
      | int => rw [canonical_int, canonical_uint, integerDatum_injective h]
      | uint => rw [canonical_uint, canonical_uint, integerDatum_injective h]
  | float =>
      cases hv'
      exact congrArg LiteralValue.float (canonical_eq_of_floatDatum h)
  | complex =>
      cases hv'
      simp only [toDatum, Datum.map.injEq, List.cons.injEq, Prod.mk.injEq, true_and, and_true] at h
      rw [canonical, canonical, canonical_eq_of_floatDatum h.1, canonical_eq_of_floatDatum h.2]
  | utf8Char =>
      cases hv'
      exact congrArg LiteralValue.char (String.singleton_inj.mp (Datum.text.inj h))
  | string | utf8String | date | time | dateTime | timestamp =>
      cases hv'
      rw [Datum.text.inj h]

end LiteralValue

/-- The value of a literal belongs to its type. -/
def Payload.Typed {α : Type} (p : Payload α) : Prop :=
  ∀ v t, p = .literal v t → v.Belongs t

theorem Payload.typed_map {α β : Type} {f : α → β} {p : Payload α} (h : p.Typed) :
    (p.map f).Typed := by
  intro v t he
  cases p with
  | literal v' t' =>
      obtain ⟨rfl, rfl⟩ := Payload.literal.inj he
      exact h v' t' rfl
  | _ => cases he

/-- After every run the values of literals belong to their types. -/
theorem Tree.typed_run {id : NodeId} (actions : List Workspace.Action) (i : Nat)
    {p : Payload NodeId} (hp : ((Workspace.run actions).tree i).payload id = .ok p) : p.Typed :=
  fun v t h => LiteralValue.belongs_of_check (checked_run actions i hp v t h)

end TypedSyntax
