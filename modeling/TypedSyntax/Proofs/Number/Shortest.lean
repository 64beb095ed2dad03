import Mathlib.Algebra.Order.Field.Power
import Mathlib.Tactic.LinearCombination
import TypedSyntax.Number.Shortest
import TypedSyntax.Proofs.Number.Arithmetic

/-!
# Shortest digits

The shortest digits of a double are at most 17, and the decimal that they write rounds
to the double.
-/

namespace TypedSyntax

/-- The magnitude of a decimal. -/
def Decimal.value (d : Decimal) : ℚ :=
  d.digits * (10 : ℚ) ^ d.exponent

namespace Decimal

/-- Zeros at the end are dropped without a change of the magnitude. -/
theorem trim_spec (fuel : Nat) (d : Decimal) :
    (trim fuel d).value = d.value ∧ (0 < d.digits → 0 < (trim fuel d).digits) ∧
      (trim fuel d).digits ≤ d.digits ∧ d.exponent ≤ (trim fuel d).exponent := by
  induction fuel generalizing d with
  | zero => exact ⟨rfl, id, le_rfl, le_rfl⟩
  | succ fuel ih =>
      rw [trim]
      split
      · next h =>
        obtain ⟨hne, hmod⟩ := h
        obtain ⟨hvalue, hpos, hle, hge⟩ := ih ⟨d.digits / 10, d.exponent + 1⟩
        dsimp only at hpos hle hge
        refine ⟨hvalue.trans ?_, fun _ => hpos (by omega), by omega, by omega⟩
        have hdigits : ((d.digits / 10 : Nat) : ℚ) * 10 = d.digits := by
          exact_mod_cast Nat.div_mul_cancel (Nat.dvd_of_mod_eq_zero hmod)
        rw [value, value, ← hdigits, zpow_add_one₀ (by norm_num)]
        ring
      · exact ⟨rfl, id, le_rfl, le_rfl⟩

end Decimal

namespace Double

variable {n d : Nat} {x : Double} {k : Int}

/-! ## The leading digit -/

theorem ten_zpow_eq_div (k : Int) : (10 : ℚ) ^ k = 10 ^ k.toNat / 10 ^ (-k).toNat := by
  rcases le_total 0 k with h | h
  · obtain ⟨m, rfl⟩ := Int.eq_ofNat_of_zero_le h
    simp
  · obtain ⟨m, rfl⟩ := Int.exists_eq_neg_ofNat h
    simp

theorem ten_zpow_pos (k : Int) : (0 : ℚ) < 10 ^ k :=
  zpow_pos (by norm_num) k

/-- The test of the search compares with a power of ten. -/
theorem reached_iff (hd : 0 < d) :
    (if 0 ≤ k then d * Nat.pow 10 k.toNat ≤ n else d ≤ n * Nat.pow 10 (-k).toNat) ↔
      (10 : ℚ) ^ k ≤ n / d := by
  have hd' : (0 : ℚ) < d := Nat.cast_pos.mpr hd
  rw [le_div_iff₀ hd']
  split
  · next h =>
    obtain ⟨m, rfl⟩ := Int.eq_ofNat_of_zero_le h
    rw [Int.toNat_natCast, zpow_natCast, mul_comm, Nat.pow_eq]
    exact_mod_cast Iff.rfl
  · next h =>
    obtain ⟨m, rfl⟩ := Int.exists_eq_neg_ofNat (Int.le_of_not_le h)
    have hpos : (0 : ℚ) < 10 ^ m := by positivity
    rw [Int.neg_neg, Int.toNat_natCast, zpow_neg, zpow_natCast, inv_mul_le_iff₀ hpos, mul_comm,
      Nat.pow_eq]
    exact_mod_cast Iff.rfl

/-- The search ends at the greatest power of ten below the magnitude. -/
theorem floorLog_spec (hd : 0 < d) (fuel : Nat) (hupper : (n / d : ℚ) < 10 ^ (k + 1))
    (hlower : (10 : ℚ) ^ (k - fuel) ≤ n / d) :
    (10 : ℚ) ^ floorLog n d fuel k ≤ n / d ∧ (n / d : ℚ) < 10 ^ (floorLog n d fuel k + 1) := by
  induction fuel generalizing k with
  | zero =>
      rw [Nat.cast_zero, sub_zero] at hlower
      exact ⟨hlower, hupper⟩
  | succ fuel ih =>
      by_cases h : (10 : ℚ) ^ k ≤ n / d
      · have hstep : floorLog n d (fuel + 1) k = k := if_pos ((reached_iff hd).mpr h)
        rw [hstep]
        exact ⟨h, hupper⟩
      · have hstep : floorLog n d (fuel + 1) k = floorLog n d fuel (k - 1) :=
          if_neg fun hreached => h ((reached_iff hd).mp hreached)
        rw [hstep]
        apply ih
        · rw [sub_add_cancel]
          exact lt_of_not_ge h
        · convert hlower using 2
          push_cast
          ring

/-- The powers of two lie between powers of ten, over a range in which the ratio of the
exponents changes by less than one. -/
theorem two_zpow_bounds {p t : Nat} (hp : 0 < p) (hle : 10 ^ t ≤ 2 ^ p) (hge : 2 ^ p ≤ 10 ^ (t + 1))
    {m : Int} (hm : -p ≤ m) (hm' : m ≤ p) :
    (10 : ℚ) ^ (m * t / p - 1) ≤ 2 ^ m ∧ (2 : ℚ) ^ m < 10 ^ (m * t / p + 2) := by
  have hp' : (0 : Int) < p := by exact_mod_cast hp
  have hlower : p * (m * t / p) ≤ m * t := Int.mul_ediv_self_le hp'.ne'
  have hupper : m * t < p * (m * t / p) + p := Int.lt_mul_ediv_self_add hp'
  generalize m * t / p = q at *
  have hone : (1 : ℚ) ≤ 10 := by norm_num
  -- The bounds between the two powers hold for all powers of both.
  have hscaled : (10 : ℚ) ^ (m * t - p) ≤ (2 ^ m) ^ p ∧ ((2 : ℚ) ^ m) ^ p ≤ 10 ^ (m * t + p) := by
    have hle' : ((10 : ℚ) ^ t) ≤ 2 ^ p := by exact_mod_cast hle
    have hge' : ((2 : ℚ) ^ p) ≤ 10 ^ (t + 1) := by exact_mod_cast hge
    have hswap : ((2 : ℚ) ^ m) ^ p = (2 ^ p) ^ m := by
      rw [← zpow_natCast, ← zpow_natCast, ← zpow_mul, ← zpow_mul, mul_comm]
    rw [hswap]
    rcases le_total 0 m with h | h
    · obtain ⟨j, rfl⟩ := Int.eq_ofNat_of_zero_le h
      rw [zpow_natCast]
      constructor
      · calc
          (10 : ℚ) ^ ((j : Int) * t - p) ≤ 10 ^ ((t * j : Nat) : Int) :=
            zpow_le_zpow_right₀ hone (by push_cast; linarith)
          _ = (10 ^ t) ^ j := by rw [zpow_natCast, pow_mul]
          _ ≤ (2 ^ p) ^ j := pow_le_pow_left₀ (by positivity) hle' j
      · calc
          ((2 : ℚ) ^ p) ^ j ≤ (10 ^ (t + 1)) ^ j := pow_le_pow_left₀ (by positivity) hge' j
          _ = 10 ^ (((t + 1) * j : Nat) : Int) := by rw [zpow_natCast, pow_mul]
          _ ≤ 10 ^ ((j : Int) * t + p) := zpow_le_zpow_right₀ hone (by push_cast; linarith)
    · obtain ⟨j, rfl⟩ := Int.exists_eq_neg_ofNat h
      rw [zpow_neg, zpow_natCast]
      constructor
      · calc
          (10 : ℚ) ^ (-(j : Int) * t - p) ≤ 10 ^ (-(((t + 1) * j : Nat) : Int)) :=
            zpow_le_zpow_right₀ hone (by push_cast; linarith)
          _ = ((10 ^ (t + 1)) ^ j)⁻¹ := by rw [zpow_neg, zpow_natCast, pow_mul]
          _ ≤ ((2 ^ p) ^ j)⁻¹ := inv_anti₀ (by positivity) (pow_le_pow_left₀ (by positivity) hge' j)
      · calc
          (((2 : ℚ) ^ p) ^ j)⁻¹ ≤ ((10 ^ t) ^ j)⁻¹ :=
            inv_anti₀ (by positivity) (pow_le_pow_left₀ (by positivity) hle' j)
          _ = 10 ^ (-((t * j : Nat) : Int)) := by rw [zpow_neg, zpow_natCast, pow_mul]
          _ ≤ 10 ^ (-(j : Int) * t + p) := zpow_le_zpow_right₀ hone (by push_cast; linarith)
  have hroot : ∀ e : Int, ((10 : ℚ) ^ e) ^ p = 10 ^ (e * p) := by
    intro e
    rw [zpow_mul, zpow_natCast]
  constructor
  · apply (pow_le_pow_iff_left₀ (by positivity) (by positivity) hp.ne').mp
    rw [hroot]
    exact (zpow_le_zpow_right₀ hone (by linarith)).trans hscaled.1
  · apply (pow_lt_pow_iff_left₀ (by positivity) (by positivity) hp.ne').mp
    rw [hroot]
    exact hscaled.2.trans_lt (zpow_lt_zpow_right₀ (by norm_num) (by linarith))

/-- Over the range of the doubles the search for the leading digit finds it. -/
theorem leadingExponent_spec (hn : n ≠ 0) (hd : d ≠ 0) (hn' : n.log2 < 2100) (hd' : d.log2 < 1100) :
    (10 : ℚ) ^ leadingExponent n d ≤ n / d ∧ (n / d : ℚ) < 10 ^ (leadingExponent n d + 1) := by
  have hn_lower : ((2 : ℚ) ^ n.log2) ≤ n := by exact_mod_cast Nat.log2_self_le hn
  have hn_upper : (n : ℚ) < 2 ^ (n.log2 + 1) := by exact_mod_cast Nat.lt_log2_self
  have hd_lower : ((2 : ℚ) ^ d.log2) ≤ d := by exact_mod_cast Nat.log2_self_le hd
  have hd_upper : (d : ℚ) < 2 ^ (d.log2 + 1) := by exact_mod_cast Nat.lt_log2_self
  have hpos : (0 : ℚ) < d := Nat.cast_pos.mpr (Nat.pos_of_ne_zero hd)
  rw [leadingExponent]
  generalize n.log2 = i at *
  generalize d.log2 = j at *
  obtain ⟨hlower, hupper⟩ := two_zpow_bounds (p := 4096) (t := 1233) (by decide) (by decide +kernel)
    (by decide +kernel) (m := (i : Int) - j + 1) (by omega) (by omega)
  push_cast at hlower hupper
  generalize ((i : Int) - j + 1) * 1233 / 4096 = q at *
  have htwo : (2 : ℚ) ^ ((i : Int) - j + 1) = 2 ^ (i + 1) / 2 ^ j := by
    rw [show (i : Int) - j + 1 = ((i + 1 : Nat) : Int) - (j : Nat) by push_cast; ring,
      zpow_sub₀ (by norm_num), zpow_natCast, zpow_natCast]
  rw [htwo] at hlower hupper
  apply floorLog_spec (Nat.pos_of_ne_zero hd)
  · calc
      (n / d : ℚ) < 2 ^ (i + 1) / 2 ^ j :=
        div_lt_div₀ hn_upper hd_lower (by positivity) (by positivity)
      _ < 10 ^ (q + 1 + 1) := by
        rw [add_assoc]
        exact hupper
  · calc
      (10 : ℚ) ^ (q + 1 - (8 : Nat)) ≤ 10 ^ (q - 1 - 1) :=
        zpow_le_zpow_right₀ (by norm_num) (by push_cast; linarith)
      _ = 10 ^ (q - 1) / 10 := by rw [zpow_sub_one₀ (by norm_num), div_eq_mul_inv]
      _ ≤ 2 ^ (i + 1) / 2 ^ j / 10 := div_le_div_of_nonneg_right hlower (by norm_num)
      _ ≤ 2 ^ i / 2 ^ (j + 1) := by
        rw [div_div, div_le_div_iff₀ (by positivity) (by positivity), pow_succ, pow_succ]
        have hpowers : (0 : ℚ) < 2 ^ i * 2 ^ j := by positivity
        linarith
      _ ≤ n / d := div_le_div₀ (Nat.cast_nonneg n) hn_lower hpos hd_upper.le

/-! ## Reading back -/

theorem rank_eq_fields (x : Double) :
    x.rank = x.exponentField * exponentWeight + x.fractionField := by
  rw [exponentField_eq, fractionField_eq, Nat.mul_comm]
  exact (Nat.div_add_mod x.rank exponentWeight).symm

/-- The gap at a double is the weight of its last bit. -/
theorem gap_rank (x : Double) : gap x.rank = 2 ^ x.biasedPower := by
  rw [gap, biasedPower, exponentField_eq]

theorem fractionField_lt (x : Double) : x.fractionField < exponentWeight :=
  Nat.mod_lt _ (by decide)

theorem significand_pos (h : 0 < x.rank) : 0 < x.significand := by
  have hrank := rank_eq_fields x
  unfold significand
  split
  · next hzero =>
    rw [hzero, Nat.zero_mul, Nat.zero_add] at hrank
    rwa [← hrank]
  · exact Nat.add_pos_left (by decide) _

/-- The last bit of the significand tells which ties a double wins. -/
theorem significand_mod_two (x : Double) : x.significand % 2 = x.rank % 2 := by
  have hrank := rank_eq_fields x
  unfold significand
  unfold exponentWeight at *
  split <;> omega

/-- The distance to the next double. -/
theorem step_mul_resolution (h : 0 < x.rank) :
    x.ratio.1 / x.significand * resolution = gap x.rank * x.ratio.2 := by
  have hpos := significand_pos h
  rw [gap_rank]
  unfold ratio
  split
  · next hpower =>
    rw [Nat.mul_div_cancel_left _ hpos, Nat.pow_eq, pow_mul_resolution,
      Nat.sub_add_cancel hpower, Nat.mul_one]
  · next hpower =>
    rw [Nat.div_self hpos, Nat.one_mul, resolution_eq (Nat.le_of_not_le hpower), Nat.pow_eq]

/-- Below a power of two the doubles are twice as dense. -/
theorem gap_pred (h : 0 < x.rank) :
    2 * gap (x.rank - 1) =
      if x.fractionField = 0 ∧ 1 < x.exponentField then gap x.rank else 2 * gap x.rank := by
  have hrank := rank_eq_fields x
  have hfraction := fractionField_lt x
  unfold gap
  split
  · next hedge =>
    have hpred : (x.rank - 1) / exponentWeight = x.exponentField - 1 := by
      unfold exponentWeight at *
      omega
    rw [hpred, ← exponentField_eq, ← Nat.pow_succ']
    congr 1
    omega
  · next hedge =>
    have hpred : (x.rank - 1) / exponentWeight - 1 = x.rank / exponentWeight - 1 := by
      unfold exponentWeight at *
      omega
    rw [hpred]

/-- The gap below a double leads up to it. -/
theorem quanta_pred_add_gap (h : 0 < x.rank) :
    quanta (x.rank - 1) + gap (x.rank - 1) = quanta x.rank := by
  rw [← quanta_succ, Nat.sub_add_cancel h]

/-- The ends of the interval are the midpoints to the neighbours. -/
theorem interval_mul_resolution (h : 0 < x.rank) :
    x.interval.1 * resolution = 2 * (quanta (x.rank - 1) + quanta x.rank) * x.ratio.2 ∧
      x.interval.2 * resolution = 2 * (quanta x.rank + quanta (x.rank + 1)) * x.ratio.2 := by
  have hvalue := ratio_mul_resolution x
  have hstep := step_mul_resolution h
  have hpred := quanta_pred_add_gap h
  constructor
  · have hbelow : (if x.fractionField = 0 ∧ 1 < x.exponentField then x.ratio.1 / x.significand
        else 2 * (x.ratio.1 / x.significand)) * resolution = 2 * gap (x.rank - 1) * x.ratio.2 := by
      rw [gap_pred h, ite_mul, ite_mul, Nat.mul_assoc, hstep, Nat.mul_assoc]
    unfold interval
    dsimp only
    rw [Nat.sub_mul, Nat.mul_assoc, hvalue, hbelow, ← hpred]
    apply Nat.sub_eq_of_eq_add
    ring
  · unfold interval
    dsimp only
    rw [quanta_succ, Nat.add_mul, Nat.mul_assoc, Nat.mul_assoc, hvalue, hstep]
    ring

/-- Numbers are compared by natural numbers in the same proportion. -/
theorem le_iff_of_scaled {a b : Nat} {r f u v : ℚ} (hr : 0 < r) (hf : 0 < f) (ha : a * r = u * f)
    (hb : b * r = v * f) : a ≤ b ↔ u ≤ v := by
  rw [← Nat.cast_le (α := ℚ), ← mul_le_mul_iff_of_pos_right hr, ha, hb,
    mul_le_mul_iff_of_pos_right hf]

/-- A decimal is compared with a midpoint. -/
theorem midpoint_le_iff {a m : Nat} (ha : a * resolution = 2 * m * x.ratio.2) (c : Decimal) :
    (a * Nat.pow 10 (-c.exponent).toNat ≤
        c.digits * Nat.pow 10 c.exponent.toNat * (4 * x.ratio.2) ↔
      (m : ℚ) ≤ 2 * (c.value * resolution)) ∧
    (c.digits * Nat.pow 10 c.exponent.toNat * (4 * x.ratio.2) ≤
        a * Nat.pow 10 (-c.exponent).toNat ↔
      2 * (c.value * resolution) ≤ (m : ℚ)) := by
  have hresolution : (0 : ℚ) < resolution := Nat.cast_pos.mpr resolution_pos
  have hdown : (0 : ℚ) < 10 ^ (-c.exponent).toNat := by positivity
  have hratio : (0 : ℚ) < x.ratio.2 := Nat.cast_pos.mpr x.ratio_snd_pos
  have ha' : (a * resolution : ℚ) = 2 * m * x.ratio.2 := by exact_mod_cast ha
  have hvalue : c.value * 10 ^ (-c.exponent).toNat = c.digits * 10 ^ c.exponent.toNat := by
    rw [Decimal.value, ten_zpow_eq_div, mul_assoc, div_mul_cancel₀ _ hdown.ne']
  -- Both sides are the compared numbers times the same factor.
  have hscale : (0 : ℚ) < 2 * x.ratio.2 * 10 ^ (-c.exponent).toNat := by positivity
  have hleft : ((a * Nat.pow 10 (-c.exponent).toNat : Nat) : ℚ) * resolution =
      m * (2 * x.ratio.2 * 10 ^ (-c.exponent).toNat) := by
    push_cast [Nat.pow_eq]
    linear_combination (10 : ℚ) ^ (-c.exponent).toNat * ha'
  have hright :
      ((c.digits * Nat.pow 10 c.exponent.toNat * (4 * x.ratio.2) : Nat) : ℚ) * resolution =
      2 * (c.value * resolution) * (2 * x.ratio.2 * 10 ^ (-c.exponent).toNat) := by
    push_cast [Nat.pow_eq]
    linear_combination (-4 : ℚ) * x.ratio.2 * resolution * hvalue
  exact ⟨le_iff_of_scaled hresolution hscale hleft hright,
    le_iff_of_scaled hresolution hscale hright hleft⟩

/-- The decimals that read back are those that round to the double. -/
theorem readsBack_iff (h : 0 < x.rank) (c : Decimal) :
    x.readsBack c = true ↔ Rounds x.rank (c.value * resolution) := by
  obtain ⟨hfst, hsnd⟩ := interval_mul_resolution h
  obtain ⟨hlow, hlow'⟩ := midpoint_le_iff hfst c
  obtain ⟨hhigh', hhigh⟩ := midpoint_le_iff hsnd c
  push_cast at hlow hlow' hhigh hhigh'
  unfold readsBack
  dsimp only
  rw [significand_mod_two]
  split
  · next heven =>
    rw [Bool.and_eq_true, decide_eq_true_eq, decide_eq_true_eq, hlow, hhigh]
    exact ⟨fun ⟨hlower, hupper⟩ => ⟨hlower, hupper, fun hodd => by omega⟩,
      fun hrounds => ⟨hrounds.lower, hrounds.upper⟩⟩
  · next hodd =>
    rw [Bool.and_eq_true, decide_eq_true_eq, decide_eq_true_eq, ← Nat.not_le, ← Nat.not_le, hlow',
      hhigh', not_le, not_le]
    exact ⟨fun hstrict => ⟨hstrict.1.le, hstrict.2.le, fun _ => hstrict⟩,
      fun hrounds => hrounds.strict (by omega)⟩

/-! ## Decimal grids -/

variable {tie : TieRule} {c : Decimal}

/-- How many steps of a decimal grid do not exceed a magnitude. -/
def gridFloor (x : Double) (k : Int) : Nat :=
  x.ratio.1 * Nat.pow 10 (-k).toNat / (x.ratio.2 * Nat.pow 10 k.toNat)

/-- A magnitude is between two steps of every decimal grid. -/
theorem gridFloor_bounds (x : Double) (k : Int) :
    gridFloor x k * (10 : ℚ) ^ k ≤ x.absValue ∧
      x.absValue < (gridFloor x k + 1) * (10 : ℚ) ^ k := by
  have hratio : (0 : ℚ) < x.ratio.2 := Nat.cast_pos.mpr x.ratio_snd_pos
  have hup : (0 : ℚ) < 10 ^ k.toNat := by positivity
  have hdown : (0 : ℚ) < 10 ^ (-k).toNat := by positivity
  have hpos : 0 < x.ratio.2 * Nat.pow 10 k.toNat :=
    Nat.mul_pos x.ratio_snd_pos (Nat.pow_pos (by decide))
  have hlower := Nat.div_mul_le_self (x.ratio.1 * Nat.pow 10 (-k).toNat)
    (x.ratio.2 * Nat.pow 10 k.toNat)
  have hupper := Nat.lt_div_mul_add (a := x.ratio.1 * Nat.pow 10 (-k).toNat) hpos
  have hlower' := (Nat.cast_le (α := ℚ)).mpr hlower
  have hupper' := (Nat.cast_lt (α := ℚ)).mpr hupper
  change ((gridFloor x k * (x.ratio.2 * Nat.pow 10 k.toNat) : Nat) : ℚ) ≤ _ at hlower'
  change _ < ((gridFloor x k * (x.ratio.2 * Nat.pow 10 k.toNat) + _ : Nat) : ℚ) at hupper'
  push_cast [Nat.pow_eq] at hlower' hupper'
  rw [ten_zpow_eq_div, absValue, mul_div_assoc', mul_div_assoc']
  constructor
  · rw [div_le_div_iff₀ hdown hratio]
    linarith
  · rw [div_lt_div_iff₀ hratio hdown]
    linarith

/-- A decimal of a grid at either side of the magnitude that reads back. -/
structure Candidate (x : Double) (k : Int) (c : Decimal) : Prop where
  exponent_eq : c.exponent = k
  pos : 0 < c.digits
  le : c.digits ≤ gridFloor x k + 1
  readsBack : x.readsBack c = true

/-- What is found on a grid is a candidate of it. -/
theorem candidate_of_onGrid? (h : x.onGrid? tie k = some c) : Candidate x k c := by
  have hfloor : x.ratio.1 * Nat.pow 10 (-k).toNat / (x.ratio.2 * Nat.pow 10 k.toNat) =
    gridFloor x k := rfl
  have hlow : (gridFloor x k != 0 && x.readsBack ⟨gridFloor x k, k⟩) = true →
      Candidate x k ⟨gridFloor x k, k⟩ := by
    intro hlow
    rw [Bool.and_eq_true, bne_iff_ne] at hlow
    exact ⟨rfl, Nat.pos_of_ne_zero hlow.1, Nat.le_succ _, hlow.2⟩
  have hhigh : x.readsBack ⟨gridFloor x k + 1, k⟩ = true →
      Candidate x k ⟨gridFloor x k + 1, k⟩ :=
    fun hhigh => ⟨rfl, Nat.succ_pos _, le_rfl, hhigh⟩
  unfold onGrid? at h
  dsimp only at h
  rw [hfloor] at h
  split at h
  · next hboth =>
    rw [Bool.and_eq_true] at hboth
    split at h
    · cases h
      exact hlow hboth.1
    · split at h
      · cases h
        exact hhigh hboth.2
      · cases tie with
        | toEven =>
            obtain rfl := Option.some.inj h
            split
            · exact hlow hboth.1
            · exact hhigh hboth.2
        | upwards =>
            cases h
            exact hhigh hboth.2
  · split at h
    · next hfirst =>
      cases h
      exact hlow hfirst
    · split at h
      · next hsecond =>
        cases h
        exact hhigh hsecond
      · cases h

/-- Something is found on a grid if one of both neighbours reads back. -/
theorem exists_onGrid? (tie : TieRule)
    (h : gridFloor x k ≠ 0 ∧ x.readsBack ⟨gridFloor x k, k⟩ = true ∨
      x.readsBack ⟨gridFloor x k + 1, k⟩ = true) : ∃ c, x.onGrid? tie k = some c := by
  apply Option.ne_none_iff_exists'.mp
  intro hnone
  have hfloor : x.ratio.1 * Nat.pow 10 (-k).toNat / (x.ratio.2 * Nat.pow 10 k.toNat) =
    gridFloor x k := rfl
  unfold onGrid? at hnone
  dsimp only at hnone
  rw [hfloor] at hnone
  split at hnone
  · cases tie <;> split_ifs at hnone
  · split at hnone
    · cases hnone
    · next hfirst =>
      split at hnone
      · cases hnone
      · next hsecond =>
        rcases h with ⟨hne, hlow⟩ | hhigh
        · exact hfirst (by rw [Bool.and_eq_true, bne_iff_ne]; exact ⟨hne, hlow⟩)
        · exact hsecond hhigh

/-- A grid that is denser than the doubles gives a decimal. -/
theorem exists_onGrid?_of_dense (tie : TieRule) (h : 0 < x.rank) (hle : (10 : ℚ) ^ k ≤ x.absValue)
    (hdense : 2 * ((10 : ℚ) ^ k * resolution) < gap (x.rank - 1) + gap x.rank) :
    ∃ c, x.onGrid? tie k = some c := by
  obtain ⟨hlower, hupper⟩ := gridFloor_bounds x k
  have hresolution : (0 : ℚ) < resolution := Nat.cast_pos.mpr resolution_pos
  have hfloor : gridFloor x k ≠ 0 := by
    intro hzero
    rw [hzero, Nat.cast_zero, zero_add, one_mul] at hupper
    linarith
  have hpred : (quanta (x.rank - 1) + gap (x.rank - 1) : ℚ) = quanta x.rank := by
    exact_mod_cast quanta_pred_add_gap h
  have hsucc : (quanta (x.rank + 1) : ℚ) = quanta x.rank + gap x.rank := by
    exact_mod_cast quanta_succ x.rank
  have hgap : (0 : ℚ) < gap x.rank := Nat.cast_pos.mpr (gap_pos _)
  have hgap' : (0 : ℚ) < gap (x.rank - 1) := Nat.cast_pos.mpr (gap_pos _)
  have hlower' := mul_le_mul_of_nonneg_right hlower hresolution.le
  have hupper' := mul_lt_mul_of_pos_right hupper hresolution
  rw [absValue_mul_resolution] at hlower' hupper'
  apply exists_onGrid? tie
  rw [readsBack_iff h, readsBack_iff h]
  -- Otherwise both midpoints lie between two neighbouring steps.
  by_cases hhigh : 2 * ((gridFloor x k + 1) * (10 : ℚ) ^ k * resolution) <
      quanta x.rank + quanta (x.rank + 1)
  · right
    rw [Decimal.value]
    push_cast
    exact ⟨by linarith, hhigh.le, fun _ => ⟨by linarith, hhigh⟩⟩
  · refine Or.inl ⟨hfloor, ?_⟩
    rw [Decimal.value]
    dsimp only
    have hlow : (quanta (x.rank - 1) + quanta x.rank : ℚ) <
        2 * (gridFloor x k * (10 : ℚ) ^ k * resolution) := by linarith
    exact ⟨hlow.le, by linarith, fun _ => ⟨hlow, by linarith⟩⟩

/-- The first grid that gives a decimal is found. -/
theorem exists_candidate_firstGrid {leading : Int} {fuel count j : Nat} (hj : j < fuel)
    (h : ∃ c, x.onGrid? tie (leading - (count + j : Nat) + 1) = some c) :
    ∃ k ≥ leading - (count + j : Nat) + 1, Candidate x k (x.firstGrid tie leading fuel count) := by
  induction fuel generalizing count j with
  | zero => exact absurd hj (Nat.not_lt_zero j)
  | succ fuel ih =>
      rw [firstGrid]
      split
      · next c hc =>
        exact ⟨leading - count + 1, by push_cast; linarith, candidate_of_onGrid? hc⟩
      · next hnone =>
        cases j with
        | zero =>
            obtain ⟨c, hc⟩ := h
            rw [Nat.add_zero, hnone] at hc
            cases hc
        | succ j =>
            have hadd : count + (j + 1) = count + 1 + j := by omega
            rw [hadd] at h ⊢
            exact ih (Nat.lt_of_succ_lt_succ hj) h

/-! ## The digits -/

theorem significand_lt (x : Double) : x.significand < 2 ^ 53 := by
  have hfraction := fractionField_lt x
  unfold significand
  unfold exponentWeight at *
  split <;> omega

theorem log2_ratio_lt (h : 0 < x.rank) : x.ratio.1.log2 < 2100 ∧ x.ratio.2.log2 < 1100 := by
  have hne := ratio_fst_ne_zero h
  have hfield : x.exponentField < 2048 := Nat.mod_lt _ (by decide)
  have hsignificand := significand_lt x
  have hpower : x.biasedPower < 2047 := by
    unfold biasedPower
    omega
  unfold ratio at *
  split at hne
  · next hlarge =>
    rw [if_pos hlarge]
    have hlt := Nat.mul_lt_mul_of_pos_right hsignificand
      (Nat.two_pow_pos (x.biasedPower - 1074))
    rw [← Nat.pow_add] at hlt
    have hlog := (Nat.log2_lt hne).mpr hlt
    exact ⟨by omega, show (1 : Nat).log2 < 1100 by decide⟩
  · next hsmall =>
    rw [if_neg hsmall]
    have hlog : x.significand.log2 < 53 := (Nat.log2_lt hne).mpr hsignificand
    have hlog' : (Nat.pow 2 (1074 - x.biasedPower)).log2 = 1074 - x.biasedPower :=
      Nat.log2_two_pow
    dsimp only
    rw [hlog']
    exact ⟨by omega, by omega⟩

/-- The grid of 17 digits is denser than the doubles. -/
theorem dense_of_leading {leading : Int} (h : 0 < x.rank) (hle : (10 : ℚ) ^ leading ≤ x.absValue) :
    2 * ((10 : ℚ) ^ (leading - 16) * resolution) < gap (x.rank - 1) + gap x.rank := by
  have hresolution : (0 : ℚ) < resolution := Nat.cast_pos.mpr resolution_pos
  have hgap : (0 : ℚ) < gap (x.rank - 1) := Nat.cast_pos.mpr (gap_pos _)
  have hmono : (gap (x.rank - 1) : ℚ) ≤ gap x.rank := Nat.cast_le.mpr (gap_mono (Nat.sub_le _ 1))
  have hwidth : (quanta x.rank : ℚ) ≤ 2 ^ 53 * gap (x.rank - 1) := by
    have hcast := (Nat.cast_le (α := ℚ)).mpr (quanta_add_gap_le (x.rank - 1))
    rw [quanta_pred_add_gap h] at hcast
    push_cast at hcast
    norm_num at hcast ⊢
    exact hcast
  have hpower : (10 : ℚ) ^ leading = 10 ^ (leading - 16) * 10 ^ 16 := by
    rw [← zpow_natCast, ← zpow_add₀ (by norm_num)]
    congr 1
    push_cast
    ring
  have hvalue := mul_le_mul_of_nonneg_right hle hresolution.le
  rw [absValue_mul_resolution, hpower] at hvalue
  norm_num at hvalue hwidth
  linarith

theorem ten_zpow_mul_resolution_lt : (10 : ℚ) ^ (-324 : Int) * resolution < 1 := by
  have hnat : resolution < Nat.pow 10 324 := by
    unfold resolution
    decide +kernel
  have hcast : ∀ m, resolution < Nat.pow 10 m → (10 : ℚ) ^ (-(m : Int)) * resolution < 1 := by
    intro m hm
    have hlt : (resolution : ℚ) < 10 ^ m := by exact_mod_cast hm
    rw [zpow_neg, zpow_natCast, inv_mul_lt_iff₀ (by positivity), mul_one]
    exact hlt
  exact hcast 324 hnat

/-- The leading exponent is that of the first digit. -/
theorem leadingExponent_ratio (h : 0 < x.rank) :
    (10 : ℚ) ^ leadingExponent x.ratio.1 x.ratio.2 ≤ x.absValue ∧
      x.absValue < 10 ^ (leadingExponent x.ratio.1 x.ratio.2 + 1) :=
  leadingExponent_spec (ratio_fst_ne_zero h) x.ratio_snd_pos.ne' (log2_ratio_lt h).1
    (log2_ratio_lt h).2

/-- A decimal of at most 17 digits that rounds to a positive double. -/
structure Writes (x : Double) (c : Decimal) : Prop where
  pos : 0 < c.digits
  le : c.digits ≤ 10 ^ 17
  exponent_ge : -324 ≤ c.exponent
  rounds : Rounds x.rank (c.value * resolution)

/-- The shortest digits round to the double. -/
theorem writes_shortest (tie : TieRule) (h : 0 < x.rank) : x.Writes (x.shortest tie) := by
  have hresolution : (0 : ℚ) < resolution := Nat.cast_pos.mpr resolution_pos
  have hzero : ¬ x.isZero = true := fun hz => h.ne' (isZero_iff.mp hz)
  obtain ⟨hlower, hupper⟩ := leadingExponent_ratio h
  rw [shortest, if_neg hzero]
  dsimp only
  generalize leadingExponent x.ratio.1 x.ratio.2 = leading at *
  -- The grid below the least double is reached from above.
  have hleast : (1 : ℚ) ≤ x.absValue * resolution := by
    rw [absValue_mul_resolution]
    exact_mod_cast quanta_strictMono h
  have hleading : -324 ≤ leading := by
    by_contra hlt
    have hpower : (10 : ℚ) ^ (leading + 1) ≤ 10 ^ (-324 : Int) :=
      zpow_le_zpow_right₀ (by norm_num) (by omega)
    have := mul_lt_mul_of_pos_right (hupper.trans_le hpower) hresolution
    linarith [ten_zpow_mul_resolution_lt]
  have hdense : 2 * ((10 : ℚ) ^ (max (leading - 16) (-324)) * resolution) <
      gap (x.rank - 1) + gap x.rank := by
    rcases max_choice (leading - 16) (-324 : Int) with hmax | hmax
    · rw [hmax]
      exact dense_of_leading h hlower
    · rw [hmax]
      have hgap : (1 : ℚ) ≤ gap x.rank := by exact_mod_cast gap_pos x.rank
      have hgap' : (1 : ℚ) ≤ gap (x.rank - 1) := by exact_mod_cast gap_pos (x.rank - 1)
      linarith [ten_zpow_mul_resolution_lt]
  obtain ⟨j, hj, hgrid⟩ : ∃ j : Nat, j < 17 ∧
      leading - (1 + j : Nat) + 1 = max (leading - 16) (-324) :=
    ⟨(leading - max (leading - 16) (-324)).toNat, by omega, by omega⟩
  have hsome : ∃ c, x.onGrid? tie (leading - (1 + j : Nat) + 1) = some c := by
    rw [hgrid]
    exact exists_onGrid?_of_dense tie h
      ((zpow_le_zpow_right₀ (by norm_num) (by omega)).trans hlower) hdense
  obtain ⟨k, hk, hcandidate⟩ := exists_candidate_firstGrid hj hsome
  generalize x.firstGrid tie leading 17 1 = c at *
  have hfloor : gridFloor x k < 10 ^ 17 := by
    have hpower : (10 : ℚ) ^ (leading + 1) ≤ 10 ^ 17 * 10 ^ k := by
      rw [← zpow_natCast, ← zpow_add₀ (by norm_num)]
      exact zpow_le_zpow_right₀ (by norm_num) (by push_cast; omega)
    have hlt := ((gridFloor_bounds x k).1.trans_lt hupper).trans_le hpower
    have := lt_of_mul_lt_mul_right hlt (ten_zpow_pos k).le
    exact_mod_cast this
  obtain ⟨hvalue, hpos, hle, hge⟩ := c.trim_spec 17
  refine ⟨hpos hcandidate.pos, hle.trans (hcandidate.le.trans hfloor), ?_, ?_⟩
  · have := hcandidate.exponent_eq
    omega
  · rw [hvalue]
    exact (readsBack_iff h c).mp hcandidate.readsBack

end Double

end TypedSyntax
