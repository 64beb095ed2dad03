import Mathlib.Algebra.Ring.Int.Defs
import TypedSyntax.Literal

/-!
# The range of integer literals

The checks of words compare them with bounds that are computed in words. The bounds are those of
the type, and no operation on the way to them leaves the words of its kind.
-/

namespace TypedSyntax

theorem IntWidth.bits_le (width : IntWidth) : width.bits ≤ 128 := by
  cases width <;> decide

/-- The integers of a type: two's complement of a width, or words of the width without a sign. -/
def InRange (signed : Bool) (width : IntWidth) (i : Int) : Prop :=
  match signed with
  | true => -2 ^ (width.bits - 1) ≤ i ∧ i ≤ 2 ^ (width.bits - 1) - 1
  | false => 0 ≤ i ∧ i ≤ 2 ^ width.bits - 1

instance (signed : Bool) (width : IntWidth) (i : Int) : Decidable (InRange signed width i) :=
  match signed with
  | true => inferInstanceAs (Decidable (_ ∧ _))
  | false => inferInstanceAs (Decidable (_ ∧ _))

/-! ## Checked arithmetic -/

/-- The integer of a word, which is read with a sign or without one. -/
def wordValue (signed : Bool) (w : BitVec 128) : Int :=
  if signed then w.toInt else w.toNat

/-- The word of an integer, unless the words of its kind are too short. -/
def word? (signed : Bool) (i : Int) : Option (BitVec 128) :=
  if wordValue signed (BitVec.ofInt 128 i) = i then some (BitVec.ofInt 128 i) else none

/-- The number below; there is none below zero. -/
def below? (n : Nat) : Option Nat :=
  if n = 0 then none else some (n - 1)

/-- A shift by less than the length of a word that loses nothing. -/
def shift? (signed : Bool) (w : BitVec 128) (n : Nat) : Option (BitVec 128) :=
  if n < 128 then word? signed (wordValue signed w * 2 ^ n) else none

def difference? (signed : Bool) (w w' : BitVec 128) : Option (BitVec 128) :=
  word? signed (wordValue signed w - wordValue signed w')

def negated? (w : BitVec 128) : Option (BitVec 128) :=
  word? true (-wordValue true w)

/-- A word without a sign that has the value of a word with one. -/
def unsigned? (w : BitVec 128) : Option (BitVec 128) :=
  word? false (wordValue true w)

namespace LiteralValue

variable {v : BitVec 128} {signed : Bool} {width : IntWidth}

/-- The check of a word without a sign, with every operation checked. -/
def uintFits? (value : BitVec 128) (signed : Bool) (width : IntWidth) : Option Bool :=
  match signed, width with
  | false, .w128 => some true
  | false, width => do
    let bound ← shift? false 1#128 width.bits
    return value.ult bound
  | true, width => do
    let bound ← shift? false 1#128 (← below? width.bits)
    return value.ult bound

/-- The check of a word with a sign, with every operation checked. -/
def intFits? (value : BitVec 128) (signed : Bool) (width : IntWidth) : Option Bool :=
  match signed, width with
  | true, .w128 => some true
  | true, width => do
    let power ← shift? true 1#128 (← below? width.bits)
    let greatest ← difference? true power 1#128
    let least ← difference? true (← negated? greatest) 1#128
    return least.sle value && value.sle greatest
  | false, width =>
    if BitVec.sle 0#128 value then do
      uintFits? (← unsigned? value) false width
    else
      some false

theorem intFits_unsigned :
    intFits v false width = (BitVec.sle 0#128 v && uintFits v false width) := by
  cases width <;> rfl

/-- No operation of the check of a word without a sign overflows. -/
theorem uintFits?_eq : uintFits? v signed width = some (uintFits v signed width) := by
  cases signed <;> cases width <;> rfl

theorem toInt_eq_toNat (h : BitVec.sle 0#128 v = true) : v.toInt = v.toNat := by
  rw [BitVec.sle_iff_toInt_le, BitVec.toInt_zero] at h
  rw [BitVec.toInt_eq_toNat_cond] at h ⊢
  split
  · rfl
  · next hneg =>
    rw [if_neg hneg] at h
    omega

theorem unsigned?_eq (h : BitVec.sle 0#128 v = true) : unsigned? v = some v := by
  rw [unsigned?, word?, wordValue, wordValue, if_pos rfl, BitVec.ofInt_toInt]
  exact if_pos (toInt_eq_toNat h).symm

/-- No operation of the check of a word with a sign overflows. -/
theorem intFits?_eq : intFits? v signed width = some (intFits v signed width) := by
  cases signed with
  | true => cases width <;> rfl
  | false =>
      have hchecked : intFits? v false width =
          if BitVec.sle 0#128 v then (unsigned? v).bind fun w => uintFits? w false width
          else some false := by
        cases width <;> rfl
      rw [hchecked, intFits_unsigned]
      split
      · next h => rw [unsigned?_eq h, Option.bind_some, uintFits?_eq, h, Bool.true_and]
      · next h => rw [Bool.eq_false_iff.mpr h, Bool.false_and]

/-! ## The bounds -/

theorem toInt_greatest :
    ((1#128 <<< (width.bits - 1)) - 1#128).toInt = 2 ^ (width.bits - 1) - 1 := by
  cases width <;> rfl

theorem toInt_least :
    (-((1#128 <<< (width.bits - 1)) - 1#128) - 1#128).toInt = -2 ^ (width.bits - 1) := by
  cases width <;> rfl

theorem uintFits_iff : uintFits v signed width = true ↔ InRange signed width v.toNat := by
  have hlt := v.isLt
  cases signed <;> cases width <;>
    simp [uintFits, InRange, IntWidth.bits, BitVec.ult] <;> omega

theorem intFits_iff : intFits v signed width = true ↔ InRange signed width v.toInt := by
  cases signed with
  | false =>
      rw [intFits_unsigned, Bool.and_eq_true, uintFits_iff]
      constructor
      · rintro ⟨hnonneg, hrange⟩
        rwa [toInt_eq_toNat hnonneg]
      · intro hrange
        have hnonneg : BitVec.sle 0#128 v = true := by
          rw [BitVec.sle_iff_toInt_le, BitVec.toInt_zero]
          exact hrange.1
        exact ⟨hnonneg, toInt_eq_toNat hnonneg ▸ hrange⟩
  | true =>
      by_cases hwidth : width = .w128
      · subst hwidth
        have hlow : -2 ^ 127 ≤ v.toInt := BitVec.le_toInt v
        have hhigh : v.toInt < 2 ^ 127 := BitVec.toInt_lt
        exact iff_of_true rfl ⟨hlow, Int.le_sub_one_of_lt hhigh⟩
      · have hbounds : intFits v true width =
            ((-((1#128 <<< (width.bits - 1)) - 1#128) - 1#128).sle v &&
              v.sle ((1#128 <<< (width.bits - 1)) - 1#128)) := by
          cases width with
          | w128 => cases hwidth rfl
          | _ => rfl
        rw [hbounds, Bool.and_eq_true, BitVec.sle_iff_toInt_le, BitVec.sle_iff_toInt_le,
          toInt_least, toInt_greatest]
        rfl

end LiteralValue

end TypedSyntax
