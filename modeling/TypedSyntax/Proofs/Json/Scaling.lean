import Mathlib.Algebra.Order.Field.Power
import TypedSyntax.Json.Number
import TypedSyntax.Proofs.Number.Arithmetic

/-!
# Reading decimals

A decimal is computed from a significand and a power of ten by a few roundings. The
result is at most as many doubles away from the nearest one, and it is the nearest
one if significand and power are doubles themselves.
-/

namespace TypedSyntax.Json

open Double

variable {s b i j k : Nat}

/-- How many roundings come before the last one. -/
def roundings (exponent : Int) : Nat :=
  if exponent < -308 then 3 else 2

theorem lt_reach (hs : s < significandBound) : s ≤ reach :=
  hs.le.trans (le_trans (by decide : significandBound ≤ 10 ^ 20) (pow_le_reach (by decide)))

theorem scale?_of_nonneg (hk : k ≤ 308) {x : Double}
    (h : (x.mulMagnitude (.powerOfTen k)).isFinite = true) :
    scale? x k = some (x.mulMagnitude (.powerOfTen k)) := by
  have hk' : (k : Int) ≤ 308 := by exact_mod_cast hk
  rw [scale?, if_neg (by omega), if_pos hk', Int.toNat_natCast]
  dsimp only
  rw [if_pos h]

theorem scale?_of_neg (hpos : 0 < k) (x : Double) :
    scale? x (-(k : Int)) = some (scaleDown 3 x k) := by
  rw [scale?, if_pos (by omega), Int.neg_neg, Int.toNat_natCast]

theorem scaleDown_of_le (hk : k ≤ 308) (steps : Nat) (x : Double) :
    scaleDown (steps + 1) x k = x.divMagnitude (.powerOfTen k) :=
  if_pos hk

theorem scaleDown_of_lt (hk : 308 < k) (steps : Nat) {x : Double} (hx : 0 < x.rank) :
    scaleDown (steps + 1) x k =
      scaleDown steps (x.divMagnitude (.powerOfTen 308)) (k - 308) := by
  have hzero : ¬ x.isZero = true := fun h => hx.ne' (isZero_iff.mp h)
  rw [scaleDown, if_neg (Nat.not_le.mpr hk), if_neg hzero]

/-- A power of ten within the doubles is multiplied with or divided by at once. -/
theorem near_scale? {e : Int} (he : e.natAbs ≤ 308) (hs : Within i (s : ℚ) (ofNatural s).absValue)
    (hp : Within j ((10 : ℚ) ^ e.natAbs) (powerOfTen e.natAbs).absValue)
    (h : Rounds b (s * (10 : ℚ) ^ e * resolution)) (hb : b + (i + j) < infinityBits) :
    ∃ y, scale? (ofNatural s) e = some y ∧ Near (i + j) b y := by
  have hten : (0 : ℚ) < 10 ^ e.natAbs := by positivity
  have hpower : 0 < (powerOfTen e.natAbs).absValue := absValue_pos (rank_powerOfTen_pos he)
  rcases le_or_gt 0 e with hnonneg | hneg
  · obtain ⟨k, rfl⟩ := Int.eq_ofNat_of_zero_le hnonneg
    rw [Int.natAbs_natCast] at *
    rw [zpow_natCast] at h
    have hnear := near_mulMagnitude h
      (hs.mul hp (Nat.cast_nonneg s) (absValue_nonneg _) hten.le hpower.le) hb
    exact ⟨_, scale?_of_nonneg he hnear.finite, hnear⟩
  · obtain ⟨k, rfl⟩ := Int.exists_eq_neg_ofNat hneg.le
    rw [Int.natAbs_neg, Int.natAbs_natCast] at *
    rw [zpow_neg, zpow_natCast, ← div_eq_mul_inv] at h
    have hnear := near_divMagnitude (rank_powerOfTen_pos he) h
      (hs.div hp (Nat.cast_nonneg s) (absValue_nonneg _) hten hpower) hb
    exact ⟨_, by rw [scale?_of_neg (by omega), scaleDown_of_le he], hnear⟩

/-- The nearest double is read if the significand has 53 bits and the power of ten is
a double. -/
theorem exact_scale? {e : Int} (hs : s < 2 ^ 53) (he : e.natAbs ≤ 22)
    (h : Rounds b (s * (10 : ℚ) ^ e * resolution)) (hb : b < infinityBits) :
    ∃ y, scale? (ofNatural s) e = some y ∧ y.isFinite = true ∧ y.rank = b := by
  have hbound : s < significandBound := hs.trans (by decide)
  have hsignificand := absValue_ofNatural hs (lt_reach hbound) (Nat.mul_one s).symm (k := 0)
  obtain ⟨y, hy, hnear⟩ := near_scale? (he.trans (by decide))
    (Within.of_eq 0 (Nat.cast_nonneg s) hsignificand.symm)
    (Within.of_eq 0 (by positivity) (absValue_powerOfTen he).symm) h hb
  exact ⟨y, hy, hnear.finite, Nat.le_antisymm hnear.le hnear.ge⟩

/-! ## Division in two steps -/

theorem slack_eq : slack = (2 ^ 53 + 1) / 2 ^ 53 := by
  norm_num [slack]

theorem cast_reach : (reach : ℚ) = 10 ^ 308 := by
  have h : ∀ n m, n = Nat.pow 10 m → (n : ℚ) = 10 ^ m := by
    rintro n m rfl
    rw [Nat.pow_eq]
    push_cast
    rfl
  exact h reach 308 (by unfold reach; rfl)

theorem within_powerOfTen_reach : Within 1 (reach : ℚ) (powerOfTen 308).absValue := by
  have h : ∀ m ≤ 308, (reach : ℚ) = 10 ^ m → Within 1 (reach : ℚ) (powerOfTen m).absValue :=
    fun m hm hreach => hreach ▸ within_powerOfTen hm
  exact h 308 le_rfl cast_reach

/-- From three on a significand over the greatest power of ten is a normal number. -/
theorem weight_le_div (hs : 3 ≤ s) {v : ℚ} (hv : Within 2 ((s : ℚ) / reach) v) :
    (exponentWeight : ℚ) ≤ v * resolution := by
  have hnat : exponentWeight * reach * (2 ^ 53 + 1) ^ 2 ≤ 3 * resolution * (2 ^ 53) ^ 2 := by
    unfold reach resolution
    decide +kernel
  have hle : exponentWeight * reach * (2 ^ 53 + 1) ^ 2 ≤ s * resolution * (2 ^ 53) ^ 2 :=
    hnat.trans (Nat.mul_le_mul_right _ (Nat.mul_le_mul_right _ hs))
  have hcast := (Nat.cast_le (α := ℚ)).mpr hle
  have hreach : (0 : ℚ) < reach := Nat.cast_pos.mpr reach_pos
  have hscaled : (exponentWeight * slack ^ 2 : ℚ) ≤ s / reach * resolution := by
    rw [slack_eq, div_pow, div_mul_eq_mul_div, le_div_iff₀ hreach, mul_div_assoc',
      div_mul_eq_mul_div, div_le_iff₀ (by positivity), mul_right_comm]
    simp only [Nat.cast_mul, Nat.cast_pow, Nat.cast_add, Nat.cast_ofNat, Nat.cast_one] at hcast ⊢
    exact hcast
  refine le_of_mul_le_mul_right (hscaled.trans ?_) (slack_pow_pos 2)
  rw [mul_right_comm]
  exact mul_le_mul_of_nonneg_right hv.ge (Nat.cast_nonneg _)

/-- A significand over the greatest power of ten, from the bits of the result. -/
theorem within_div_of_rank {m : Nat} {y : Double} (hrank : y.rank = m) (hm : m < exponentWeight)
    (hle : m * reach * 2 ^ 53 ≤ s * resolution * (2 ^ 53 + 1))
    (hge : s * resolution * 2 ^ 53 ≤ m * reach * (2 ^ 53 + 1)) :
    Within 1 ((s : ℚ) / reach) y.absValue := by
  have hreach : (0 : ℚ) < reach := Nat.cast_pos.mpr reach_pos
  have hresolution : (0 : ℚ) < resolution := Nat.cast_pos.mpr resolution_pos
  have hquanta : quanta y.rank = m := by
    rw [hrank, quanta, if_pos hm]
  have hle' : (m * reach * 2 ^ 53 : ℚ) ≤ s * resolution * (2 ^ 53 + 1) := by exact_mod_cast hle
  have hge' : (s * resolution * 2 ^ 53 : ℚ) ≤ m * reach * (2 ^ 53 + 1) := by exact_mod_cast hge
  apply Within.of_mul_right hresolution
  rw [absValue_mul_resolution, hquanta, div_mul_eq_mul_div]
  constructor
  · rw [pow_one, slack_eq, div_mul_div_comm, le_div_iff₀ (by positivity)]
    linarith
  · rw [pow_one, slack_eq, div_le_iff₀ hreach, mul_div_assoc', div_mul_eq_mul_div,
      le_div_iff₀ (by positivity)]
    linarith

theorem isFinite_div_powerOfTen (hs : s ≤ reach) :
    ((ofNatural s).divMagnitude (powerOfTen 308)).isFinite = true := by
  apply isFinite_divMagnitude (rounds_ofNatural hs).1 (rank_powerOfTen_pos le_rfl)
  have hle := within_powerOfTen_reach.ge
  have hone : (1 : ℚ) * slack ≤ (powerOfTen 308).absValue * slack := by
    refine le_trans ?_ (pow_one slack ▸ hle)
    have htwo : (10 ^ 1 : Nat) ≤ reach := pow_le_reach (by decide)
    have hcast : (10 ^ 1 : ℚ) ≤ reach := by exact_mod_cast htwo
    exact le_trans (by norm_num [slack]) hcast
  exact le_of_mul_le_mul_right hone (by norm_num [slack])

/-- A significand over the greatest power of ten, after three roundings. -/
theorem within_div_powerOfTen (hpos : 0 < s) (hs : s < significandBound) :
    Within 3 ((s : ℚ) / reach) ((ofNatural s).divMagnitude (powerOfTen 308)).absValue := by
  have hreach : (0 : ℚ) < reach := Nat.cast_pos.mpr reach_pos
  have hnonneg : (0 : ℚ) ≤ s / reach := by positivity
  rcases Nat.lt_or_ge s 3 with hsmall | hlarge
  · -- Here the first quotient is not normal; there are only two of these.
    have hwithin : Within 1 ((s : ℚ) / reach)
        ((ofNatural s).divMagnitude (powerOfTen 308)).absValue := by
      obtain rfl | rfl : s = 1 ∨ s = 2 := by omega
      · exact within_div_of_rank (m := 2024022533073106) (by decide +kernel) (by decide)
          (by unfold reach resolution; decide +kernel) (by unfold reach resolution; decide +kernel)
      · exact within_div_of_rank (m := 4048045066146212) (by decide +kernel) (by decide)
          (by unfold reach resolution; decide +kernel) (by unfold reach resolution; decide +kernel)
    exact hwithin.mono hnonneg (absValue_nonneg _) (by decide)
  · have hpower : 0 < (powerOfTen 308).absValue := absValue_pos (rank_powerOfTen_pos le_rfl)
    have hquotient : Within 2 ((s : ℚ) / reach)
        ((ofNatural s).absValue / (powerOfTen 308).absValue) :=
      (within_ofNatural hpos (lt_reach hs)).div within_powerOfTen_reach (Nat.cast_nonneg s)
        (absValue_nonneg _) hreach hpower
    have hfinite := isFinite_div_powerOfTen (lt_reach hs)
    have hrounds := rounds_divMagnitude (rank_powerOfTen_pos le_rfl) hfinite
    exact hquotient.trans (within_absValue hrounds (weight_le_div hlarge hquotient))

/-- By greater powers of ten the significand is divided in two steps. -/
theorem near_scale?_of_lt (hpos : 0 < s) (hs : s < significandBound) (hk : k ≤ 22)
    (h : Rounds b (s * (10 : ℚ) ^ (-((308 + k : Nat) : Int)) * resolution)) (hlt : 0 < k)
    (hb : b + 3 < infinityBits) :
    ∃ y, scale? (ofNatural s) (-((308 + k : Nat) : Int)) = some y ∧ Near 3 b y := by
  have hsecond : 0 < (powerOfTen k).rank := rank_powerOfTen_pos (hk.trans (by decide))
  have hpower : (0 : ℚ) < 10 ^ k := by positivity
  have hexact : (s * (10 : ℚ) ^ (-((308 + k : Nat) : Int)) : ℚ) = s / reach / 10 ^ k := by
    rw [cast_reach, zpow_neg, zpow_natCast, pow_add, div_div, div_eq_mul_inv]
  rw [hexact] at h
  have hquotient : Within (3 + 0) ((s : ℚ) / reach / 10 ^ k)
      (((ofNatural s).divMagnitude (powerOfTen 308)).absValue / (powerOfTen k).absValue) := by
    apply (within_div_powerOfTen hpos hs).div
    · exact Within.of_eq 0 hpower.le (absValue_powerOfTen hk).symm
    · positivity
    · exact absValue_nonneg _
    · exact hpower
    · exact absValue_pos hsecond
  refine ⟨_, ?_, near_divMagnitude hsecond h hquotient hb⟩
  rw [scale?_of_neg (by omega),
    scaleDown_of_lt (by omega) 2 (rank_ofNatural_pos hpos (lt_reach hs)), Nat.add_sub_cancel_left,
    scaleDown_of_le (hk.trans (by decide))]

/-- A significand of 64 bits times a power of ten is read as a double that is away
from the nearest one by at most the number of the roundings before the last. -/
theorem near_scale?_roundings {e : Int} (hpos : 0 < s) (hs : s < significandBound) (he : -330 ≤ e)
    (he' : e ≤ 308) (h : Rounds b (s * (10 : ℚ) ^ e * resolution))
    (hb : b + roundings e < infinityBits) :
    ∃ y, scale? (ofNatural s) e = some y ∧ Near (roundings e) b y := by
  by_cases hlow : e < -308
  · obtain ⟨k, rfl⟩ : ∃ k : Nat, e = -((308 + k : Nat) : Int) := ⟨(-e).toNat - 308, by omega⟩
    rw [roundings, if_pos hlow] at hb ⊢
    exact near_scale?_of_lt hpos hs (by omega) h (by omega) hb
  · rw [roundings, if_neg hlow] at hb ⊢
    have habs : e.natAbs ≤ 308 := by omega
    exact near_scale? habs (within_ofNatural hpos (lt_reach hs)) (within_powerOfTen habs) h hb

end TypedSyntax.Json
