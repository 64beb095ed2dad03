import Mathlib.Algebra.Order.Field.Rat
import Mathlib.Order.Monotone.Basic
import Mathlib.Tactic.FieldSimp
import Mathlib.Tactic.GCongr
import Mathlib.Tactic.Linarith
import Mathlib.Tactic.Positivity
import Mathlib.Tactic.Ring
import TypedSyntax.Number.Double

/-!
# Rounding to doubles

The bits of a magnitude grow with the magnitude, so that a positive double is known
by its bits. A number rounds to the bits `b` if it lies between the midpoints below
and above; an end belongs to it if `b` is even. What is a little greater rounds to
bits that are little greater.
-/

namespace TypedSyntax.Double

/-! ## Magnitudes -/

/-- The magnitude with some bits in units of the least double. -/
def quanta (b : Nat) : Nat :=
  if b < exponentWeight then b
  else (exponentWeight + b % exponentWeight) * 2 ^ (b / exponentWeight - 1)

/-- The distance from the magnitude with some bits to the next one. -/
def gap (b : Nat) : Nat :=
  2 ^ (b / exponentWeight - 1)

/-- Steps of a grid of spacing `2 ^ p`, also the first one of the next binade. -/
theorem quanta_eq {p m : Nat} (h : p = 0 ∨ exponentWeight ≤ m) (hm : m ≤ 2 * exponentWeight) :
    quanta (p * exponentWeight + m) = m * 2 ^ p := by
  unfold quanta
  rcases Nat.lt_or_ge m exponentWeight with hsmall | hlarge
  · obtain rfl : p = 0 := h.resolve_right (Nat.not_le.mpr hsmall)
    rw [Nat.zero_mul, Nat.zero_add, if_pos hsmall, Nat.pow_zero, Nat.mul_one]
  · rw [if_neg (Nat.not_lt.mpr (Nat.le_add_left_of_le hlarge))]
    rcases Nat.lt_or_ge m (2 * exponentWeight) with hlt | hge
    · have hdiv : (p * exponentWeight + m) / exponentWeight = p + 1 := by
        unfold exponentWeight at *
        omega
      have hmod : (p * exponentWeight + m) % exponentWeight = m - exponentWeight := by
        unfold exponentWeight at *
        omega
      rw [hdiv, hmod, Nat.add_sub_cancel, Nat.add_sub_cancel' hlarge]
    · obtain rfl : m = 2 * exponentWeight := Nat.le_antisymm hm hge
      have hdiv : (p * exponentWeight + 2 * exponentWeight) / exponentWeight = p + 1 + 1 := by
        unfold exponentWeight
        omega
      have hmod : (p * exponentWeight + 2 * exponentWeight) % exponentWeight = 0 := by
        unfold exponentWeight
        omega
      rw [hdiv, hmod, Nat.add_zero, Nat.add_sub_cancel, Nat.pow_succ]
      ring

/-- Every magnitude lies on the grid of its binade. -/
theorem exists_binade (b : Nat) : ∃ p m, b = p * exponentWeight + m ∧
    (p = 0 ∨ exponentWeight ≤ m) ∧ m < 2 * exponentWeight ∧ gap b = 2 ^ p := by
  rcases Nat.lt_or_ge b exponentWeight with hsmall | hlarge
  · refine ⟨0, b, by simp, Or.inl rfl, Nat.lt_of_lt_of_le hsmall (by decide), ?_⟩
    rw [gap, Nat.div_eq_of_lt hsmall]
  · have hmod : b % exponentWeight < exponentWeight := Nat.mod_lt b (by decide)
    have hdiv : 1 ≤ b / exponentWeight := Nat.div_pos hlarge (by decide)
    have hb := Nat.div_add_mod b exponentWeight
    refine ⟨b / exponentWeight - 1, exponentWeight + b % exponentWeight, ?_,
      Or.inr (Nat.le_add_right _ _), by omega, rfl⟩
    obtain ⟨p, hp⟩ := Nat.exists_eq_add_of_le' hdiv
    rw [hp] at hb ⊢
    rw [Nat.add_sub_cancel]
    linarith

/-- Magnitudes follow one another at the distance of their gap. -/
theorem quanta_succ (b : Nat) : quanta (b + 1) = quanta b + gap b := by
  obtain ⟨p, m, rfl, hp, hm, hgap⟩ := exists_binade b
  rw [hgap, Nat.add_assoc, quanta_eq (hp.imp_right Nat.le_succ_of_le) hm, quanta_eq hp hm.le]
  exact Nat.succ_mul m (2 ^ p)

theorem gap_pos (b : Nat) : 0 < gap b :=
  Nat.pow_pos (by decide)

/-- Gaps do not get smaller. -/
theorem gap_mono : Monotone gap := by
  intro b b' h
  exact Nat.pow_le_pow_right (by decide) (Nat.sub_le_sub_right (Nat.div_le_div_right h) 1)

/-- More bits are a greater magnitude. -/
theorem quanta_strictMono : StrictMono quanta := by
  apply strictMono_nat_of_lt_succ
  intro b
  rw [quanta_succ]
  exact Nat.lt_add_of_pos_right (gap_pos b)

/-- A significand has at most 53 bits. -/
theorem quanta_add_gap_le (b : Nat) : quanta b + gap b ≤ 2 * exponentWeight * gap b := by
  obtain ⟨p, m, rfl, hp, hm, hgap⟩ := exists_binade b
  rw [hgap, quanta_eq hp hm.le, ← Nat.succ_mul]
  exact Nat.mul_le_mul_right _ hm

/-- From the least normal double on a significand has 53 bits. -/
theorem le_quanta {b : Nat} (h : exponentWeight ≤ b) : exponentWeight * gap b ≤ quanta b := by
  rw [gap, quanta, if_neg (Nat.not_lt.mpr h)]
  exact Nat.mul_le_mul_right _ (Nat.le_add_right _ _)

/-! ## Nearest doubles -/

/-- The bits to which a magnitude in units of the least double rounds. -/
structure Rounds (b : Nat) (q : ℚ) : Prop where
  lower : (quanta (b - 1) + quanta b : ℚ) ≤ 2 * q
  upper : 2 * q ≤ quanta b + quanta (b + 1)
  strict : b % 2 = 1 → (quanta (b - 1) + quanta b : ℚ) < 2 * q ∧ 2 * q < quanta b + quanta (b + 1)

variable {b b' : Nat} {q q' : ℚ}

theorem Rounds.nonneg (h : Rounds b q) : 0 ≤ q := by
  have hlower := h.lower
  have hsum : (0 : ℚ) ≤ quanta (b - 1) + quanta b := by positivity
  linarith

theorem cast_quanta_le (h : b ≤ b') : (quanta b : ℚ) ≤ quanta b' :=
  Nat.cast_le.mpr (quanta_strictMono.monotone h)

/-- Greater magnitudes have greater bits. -/
theorem Rounds.le (h : Rounds b q) (h' : Rounds b' q') (hq : q ≤ q') : b ≤ b' := by
  by_contra hlt
  obtain ⟨c, rfl⟩ : ∃ c, b = c + 1 := Nat.exists_eq_add_of_le' (by omega)
  have hlower := h.lower
  have hupper := h'.upper
  rw [Nat.add_sub_cancel] at hlower
  have hle : (quanta b' : ℚ) ≤ quanta c := cast_quanta_le (by omega)
  have hle' : (quanta (b' + 1) : ℚ) ≤ quanta (c + 1) := cast_quanta_le (by omega)
  -- Both numbers are the midpoint between two neighbours, and one of these is odd.
  have heq : quanta b' = quanta c := Nat.cast_injective (R := ℚ) (by linarith)
  obtain rfl : b' = c := quanta_strictMono.injective heq
  rcases Nat.mod_two_eq_zero_or_one b' with heven | hodd
  · have hstrict := (h.strict (by omega)).1
    rw [Nat.add_sub_cancel] at hstrict
    linarith
  · have hstrict := (h'.strict hodd).2
    linarith

/-- A magnitude rounds to one double. -/
theorem Rounds.unique (h : Rounds b q) (h' : Rounds b' q) : b = b' :=
  Nat.le_antisymm (h.le h' le_rfl) (h'.le h le_rfl)

/-- A double rounds to itself. -/
theorem rounds_quanta (b : Nat) : Rounds b (quanta b) := by
  have hnext : (quanta b : ℚ) < quanta (b + 1) :=
    Nat.cast_lt.mpr (quanta_strictMono (Nat.lt_succ_self b))
  have hprevious : (quanta (b - 1) : ℚ) ≤ quanta b := cast_quanta_le (Nat.sub_le b 1)
  refine ⟨by linarith, by linarith, fun hodd => ⟨?_, by linarith⟩⟩
  have hlt : (quanta (b - 1) : ℚ) < quanta b :=
    Nat.cast_lt.mpr (quanta_strictMono (by omega))
  linarith

/-! ## Relative errors -/

/-- The factor by which one rounding changes a magnitude at most. -/
def slack : ℚ := 1 + 1 / 2 ^ 53

/-- Magnitudes that differ by at most the factor of some roundings. -/
structure Within (k : Nat) (q q' : ℚ) : Prop where
  le : q' ≤ q * slack ^ k
  ge : q ≤ q' * slack ^ k

theorem one_le_slack_pow (k : Nat) : 1 ≤ slack ^ k :=
  one_le_pow₀ (by norm_num [slack])

theorem slack_pow_pos (k : Nat) : 0 < slack ^ k :=
  lt_of_lt_of_le one_pos (one_le_slack_pow k)

namespace Within

variable {j k : Nat} {r r' : ℚ}

theorem of_eq (k : Nat) (hq : 0 ≤ q) (h : q = q') : Within k q q' := by
  subst h
  have hle := le_mul_of_one_le_right hq (one_le_slack_pow k)
  exact ⟨hle, hle⟩

/-- Roundings add up. -/
theorem trans {q'' : ℚ} (h : Within j q q') (h' : Within k q' q'') : Within (j + k) q q'' := by
  constructor
  · calc
      q'' ≤ q' * slack ^ k := h'.le
      _ ≤ q * slack ^ j * slack ^ k := mul_le_mul_of_nonneg_right h.le (slack_pow_pos k).le
      _ = q * slack ^ (j + k) := by rw [mul_assoc, pow_add]
  · calc
      q ≤ q' * slack ^ j := h.ge
      _ ≤ q'' * slack ^ k * slack ^ j := mul_le_mul_of_nonneg_right h'.ge (slack_pow_pos j).le
      _ = q'' * slack ^ (j + k) := by rw [mul_assoc, ← pow_add, Nat.add_comm]

theorem mono (h : Within j q q') (hq : 0 ≤ q) (hq' : 0 ≤ q') (hjk : j ≤ k) : Within k q q' := by
  have hpow : slack ^ j ≤ slack ^ k := pow_le_pow_right₀ (by norm_num [slack]) hjk
  exact ⟨h.le.trans (mul_le_mul_of_nonneg_left hpow hq),
    h.ge.trans (mul_le_mul_of_nonneg_left hpow hq')⟩

/-- The factors of a product add up their roundings. -/
theorem mul (h : Within j q q') (h' : Within k r r') (hq : 0 ≤ q) (hq' : 0 ≤ q') (hr : 0 ≤ r)
    (hr' : 0 ≤ r') : Within (j + k) (q * r) (q' * r') := by
  constructor
  · calc
      q' * r' ≤ q * slack ^ j * (r * slack ^ k) :=
        mul_le_mul h.le h'.le hr' (mul_nonneg hq (slack_pow_pos j).le)
      _ = q * r * slack ^ (j + k) := by rw [pow_add]; ring
  · calc
      q * r ≤ q' * slack ^ j * (r' * slack ^ k) :=
        mul_le_mul h.ge h'.ge hr (mul_nonneg hq' (slack_pow_pos j).le)
      _ = q' * r' * slack ^ (j + k) := by rw [pow_add]; ring

/-- A reciprocal has as many roundings. -/
theorem inv (h : Within k q q') (hq : 0 < q) (hq' : 0 < q') : Within k q⁻¹ q'⁻¹ := by
  have hslack := slack_pow_pos k
  constructor
  · rw [inv_le_iff_one_le_mul₀ hq', inv_mul_eq_div, div_mul_eq_mul_div, le_div_iff₀ hq, one_mul,
      mul_comm]
    exact h.ge
  · rw [inv_le_iff_one_le_mul₀ hq, inv_mul_eq_div, div_mul_eq_mul_div, le_div_iff₀ hq', one_mul,
      mul_comm]
    exact h.le

/-- The parts of a quotient add up their roundings. -/
theorem div (h : Within j q q') (h' : Within k r r') (hq : 0 ≤ q) (hq' : 0 ≤ q') (hr : 0 < r)
    (hr' : 0 < r') : Within (j + k) (q / r) (q' / r') := by
  rw [div_eq_mul_inv, div_eq_mul_inv]
  exact h.mul (h'.inv hr hr') hq hq' (inv_nonneg.mpr hr.le) (inv_nonneg.mpr hr'.le)

/-- A relative error does not depend on the unit. -/
theorem of_mul_right {c : ℚ} (hc : 0 < c) (h : Within k (q * c) (q' * c)) : Within k q q' := by
  constructor
  · refine le_of_mul_le_mul_right ?_ hc
    rw [mul_right_comm]
    exact h.le
  · refine le_of_mul_le_mul_right ?_ hc
    rw [mul_right_comm]
    exact h.ge

theorem mul_right {c : ℚ} (hc : 0 ≤ c) (h : Within k q q') : Within k (q * c) (q' * c) := by
  constructor
  · rw [mul_right_comm]
    exact mul_le_mul_of_nonneg_right h.le hc
  · rw [mul_right_comm]
    exact mul_le_mul_of_nonneg_right h.ge hc

end Within

/-- One rounding moves the midpoint above a double by less than the distance to the
next one. -/
theorem midpoint_mul_slack_lt (b : Nat) :
    (quanta b + quanta (b + 1) : ℚ) * slack < quanta (b + 1) + quanta (b + 2) := by
  have hwidth : (quanta b + gap b : ℚ) ≤ 2 ^ 53 * gap b := by
    have h := quanta_add_gap_le b
    have hcast : ((quanta b + gap b : Nat) : ℚ) ≤ ((2 * exponentWeight * gap b : Nat) : ℚ) :=
      Nat.cast_le.mpr h
    push_cast at hcast
    norm_num at hcast ⊢
    exact hcast
  have hgap : (gap b : ℚ) ≤ gap (b + 1) := Nat.cast_le.mpr (gap_mono (Nat.le_succ b))
  have hpos : (0 : ℚ) < gap b := Nat.cast_pos.mpr (gap_pos b)
  rw [quanta_succ (b + 1), quanta_succ b, slack]
  push_cast
  rw [mul_add, mul_one, mul_one_div]
  have hsmall : (quanta b + (quanta b + gap b) : ℚ) / 2 ^ 53 < 2 * gap b := by
    rw [div_lt_iff₀ (by positivity)]
    linarith
  linarith

/-- Some roundings move a midpoint by as many doubles at most. -/
theorem midpoint_mul_slack_pow_le (b k : Nat) :
    (quanta b + quanta (b + 1) : ℚ) * slack ^ k ≤ quanta (b + k) + quanta (b + k + 1) := by
  induction k with
  | zero => simp
  | succ k ih =>
      calc
        (quanta b + quanta (b + 1) : ℚ) * slack ^ (k + 1)
          = (quanta b + quanta (b + 1) : ℚ) * slack ^ k * slack := by rw [pow_succ, mul_assoc]
        _ ≤ (quanta (b + k) + quanta (b + k + 1)) * slack :=
          mul_le_mul_of_nonneg_right ih (by norm_num [slack])
        _ ≤ quanta (b + (k + 1)) + quanta (b + (k + 1) + 1) := (midpoint_mul_slack_lt (b + k)).le

/-- What is greater by some roundings has bits that are greater by at most as
many. -/
theorem Rounds.le_add {k : Nat} (h : Rounds b q) (h' : Rounds b' q') (hq : q' ≤ q * slack ^ k) :
    b' ≤ b + k := by
  cases k with
  | zero => exact h'.le h (by simpa using hq)
  | succ k =>
      by_contra hlt
      have hupper := h.upper
      have hlower := h'.lower
      have hmidpoint := midpoint_mul_slack_pow_le b k
      have hstep := midpoint_mul_slack_lt (b + k)
      have hle : (quanta (b + k + 1) : ℚ) ≤ quanta (b' - 1) := cast_quanta_le (by omega)
      have hle' : (quanta (b + k + 2) : ℚ) ≤ quanta b' := cast_quanta_le (by omega)
      have hscaled : 2 * q' ≤ (quanta b + quanta (b + 1) : ℚ) * slack ^ k * slack := by
        calc
          2 * q' ≤ 2 * (q * slack ^ (k + 1)) := by linarith
          _ = 2 * q * (slack ^ k * slack) := by rw [pow_succ, mul_assoc]
          _ ≤ (quanta b + quanta (b + 1)) * (slack ^ k * slack) :=
            mul_le_mul_of_nonneg_right hupper
              (mul_nonneg (slack_pow_pos k).le (by norm_num [slack]))
          _ = (quanta b + quanta (b + 1)) * slack ^ k * slack := (mul_assoc _ _ _).symm
      have hbound : (quanta b + quanta (b + 1) : ℚ) * slack ^ k * slack ≤
          (quanta (b + k) + quanta (b + k + 1)) * slack :=
        mul_le_mul_of_nonneg_right hmidpoint (by norm_num [slack])
      linarith

/-- Magnitudes that differ by some roundings have bits that differ by at most as
many. -/
theorem Rounds.dist_le {k : Nat} (h : Rounds b q) (h' : Rounds b' q') (hq : Within k q q') :
    b' ≤ b + k ∧ b ≤ b' + k :=
  ⟨h.le_add h' hq.le, h'.le_add h hq.ge⟩

theorem cast_le_quanta (h : exponentWeight ≤ b) : (2 ^ 52 * gap b : ℚ) ≤ quanta b := by
  have hcast : ((exponentWeight * gap b : Nat) : ℚ) ≤ quanta b := Nat.cast_le.mpr (le_quanta h)
  push_cast at hcast
  norm_num at hcast ⊢
  exact hcast

/-- From the least normal double on, a rounding changes a magnitude at most by its
factor. -/
theorem Rounds.within (h : Rounds b q) (hq : (exponentWeight : ℚ) ≤ q) :
    Within 1 q (quanta b) := by
  have hleast : quanta exponentWeight = exponentWeight := by decide
  have hb : exponentWeight ≤ b := (rounds_quanta exponentWeight).le h (hleast ▸ hq)
  have hpos : 0 ≤ q := h.nonneg
  constructor
  · rw [pow_one, slack, mul_add, mul_one, mul_one_div]
    rcases Nat.eq_or_lt_of_le hb with rfl | hlt
    · rw [hleast]
      exact hq.trans (le_add_of_nonneg_right (by positivity))
    · obtain ⟨c, rfl⟩ : ∃ c, b = c + 1 := Nat.exists_eq_add_of_le' (by omega)
      have hlower := h.lower
      have hgap := cast_le_quanta (Nat.le_of_lt_succ hlt)
      have hgap_pos : (0 : ℚ) < gap c := Nat.cast_pos.mpr (gap_pos c)
      rw [Nat.add_sub_cancel, quanta_succ] at hlower
      rw [quanta_succ]
      push_cast at hlower ⊢
      have hhalf : (gap c : ℚ) / 2 ≤ q / 2 ^ 53 := by
        rw [div_le_div_iff₀ (by norm_num) (by positivity)]
        linarith
      linarith
  · have hupper := h.upper
    have hgap := cast_le_quanta hb
    rw [quanta_succ] at hupper
    rw [pow_one, slack, mul_add, mul_one, mul_one_div]
    push_cast at hupper
    have hhalf : (gap b : ℚ) / 2 ≤ quanta b / 2 ^ 53 := by
      rw [div_le_div_iff₀ (by norm_num) (by positivity)]
      linarith
    linarith

/-! ## Rounded quotients -/

variable {n d : Nat}

/-- The nearest integer to a quotient, the even one of two. -/
theorem roundHalfEven_spec (n : Nat) (hd : 0 < d) :
    2 * n ≤ (2 * roundHalfEven n d + 1) * d ∧ 2 * roundHalfEven n d * d ≤ 2 * n + d ∧
      (roundHalfEven n d % 2 = 1 → 2 * n < (2 * roundHalfEven n d + 1) * d ∧
        2 * roundHalfEven n d * d < 2 * n + d) := by
  have hn := Nat.div_add_mod n d
  have hr := Nat.mod_lt n hd
  unfold roundHalfEven
  generalize n / d = q at *
  generalize n % d = r at *
  subst hn
  dsimp only
  split
  · refine ⟨by nlinarith, by nlinarith, fun _ => ⟨by nlinarith, by nlinarith⟩⟩
  · split
    · refine ⟨by nlinarith, by nlinarith, fun _ => ⟨by nlinarith, by nlinarith⟩⟩
    · split
      · refine ⟨by nlinarith, by nlinarith, fun hodd => by omega⟩
      · refine ⟨by nlinarith, by nlinarith, fun hodd => by omega⟩

/-- The number of units in one. -/
@[irreducible] def resolution : Nat :=
  Nat.pow 2 1074

theorem pow_mul_resolution (k : Nat) : 2 ^ k * resolution = 2 ^ (k + 1074) := by
  have h : ∀ m, 2 ^ k * Nat.pow 2 m = 2 ^ (k + m) := fun m => (Nat.pow_add 2 k m).symm
  unfold resolution
  exact h 1074

theorem resolution_eq {k : Nat} (hk : k ≤ 1074) : resolution = 2 ^ k * 2 ^ (1074 - k) := by
  have h : ∀ m, (∀ j, 2 ^ j * resolution = 2 ^ (j + m)) → k ≤ m →
      resolution = 2 ^ k * 2 ^ (m - k) := by
    intro m hm hk
    have hzero := hm 0
    rw [Nat.pow_zero, Nat.one_mul, Nat.zero_add] at hzero
    rw [← Nat.pow_add, Nat.add_sub_cancel' hk, hzero]
  exact h 1074 pow_mul_resolution hk

theorem resolution_pos : 0 < resolution := by
  have h : ∀ m, 0 < Nat.pow 2 m := Nat.two_pow_pos
  unfold resolution
  exact h 1074

/-- One is not subnormal. -/
theorem weight_le_resolution : exponentWeight ≤ resolution := by
  have h : ∀ m, 52 ≤ m → exponentWeight ≤ Nat.pow 2 m :=
    fun m hm => Nat.pow_le_pow_right (n := 2) (by decide) hm
  unfold resolution
  exact h 1074 (by decide)

/-- The grid on which `nearestBits` rounds. -/
def gridPower (n d : Nat) : Nat :=
  let estimate := n.log2 + 1074 - d.log2 - 53
  if n * resolution < 2 * exponentWeight * (d * Nat.pow 2 estimate) then estimate
  else estimate + 1

/-- Rounding takes place on the grid of the magnitude. -/
theorem nearestBits_eq (hn : n ≠ 0) : nearestBits n d =
    min (gridPower n d * exponentWeight +
      roundHalfEven (n * resolution) (d * Nat.pow 2 (gridPower n d))) infinityBits := by
  unfold nearestBits gridPower resolution
  rw [if_neg hn]

/-- On its grid a quotient has 53 bits before the point, unless the grid is the
finest one. -/
theorem gridPower_spec (hn : n ≠ 0) (hd : d ≠ 0) :
    n * resolution < 2 * exponentWeight * (d * 2 ^ gridPower n d) ∧
      (gridPower n d = 0 ∨ exponentWeight * (d * 2 ^ gridPower n d) ≤ n * resolution) := by
  have hweight : exponentWeight = 2 ^ 52 := rfl
  have hn_lower := Nat.log2_self_le hn
  have hn_upper := Nat.lt_log2_self (n := n)
  have hd_lower := Nat.log2_self_le hd
  have hd_upper := Nat.lt_log2_self (n := d)
  simp only [gridPower, Nat.pow_eq]
  generalize n.log2 = l at *
  generalize d.log2 = k at *
  rcases Nat.lt_or_ge (l + 1074) (k + 53) with hsmall | hlarge
  · have hestimate : l + 1074 - k - 53 = 0 := by omega
    have hfits : n * resolution < 2 * exponentWeight * (d * 2 ^ 0) := by
      calc
        n * resolution < 2 ^ (l + 1) * resolution :=
          Nat.mul_lt_mul_of_pos_right hn_upper resolution_pos
        _ = 2 ^ (l + 1 + 1074) := pow_mul_resolution (l + 1)
        _ ≤ 2 ^ (53 + k) := Nat.pow_le_pow_right (by decide) (by omega)
        _ = 2 * exponentWeight * 2 ^ k := Nat.pow_add 2 53 k
        _ ≤ 2 * exponentWeight * (d * 2 ^ 0) := by
          rw [Nat.pow_zero, Nat.mul_one]
          exact Nat.mul_le_mul_left _ hd_lower
    rw [hestimate, if_pos hfits]
    exact ⟨hfits, Or.inl rfl⟩
  · obtain ⟨e, he⟩ : ∃ e, l + 1074 = k + 53 + e := Nat.exists_eq_add_of_le hlarge
    have hestimate : l + 1074 - k - 53 = e := by omega
    rw [hestimate]
    have hlower : exponentWeight * (d * 2 ^ e) ≤ n * resolution := by
      calc
        exponentWeight * (d * 2 ^ e) ≤ 2 ^ 52 * (2 ^ (k + 1) * 2 ^ e) :=
          Nat.mul_le_mul_left _ (Nat.mul_le_mul_right _ hd_upper.le)
        _ = 2 ^ (l + 1074) := by rw [← Nat.pow_add, ← Nat.pow_add, he]; congr 1; omega
        _ = 2 ^ l * resolution := (pow_mul_resolution l).symm
        _ ≤ n * resolution := Nat.mul_le_mul_right _ hn_lower
    have hupper : n * resolution < 2 * (2 * exponentWeight * (d * 2 ^ e)) := by
      calc
        n * resolution < 2 ^ (l + 1) * resolution :=
          Nat.mul_lt_mul_of_pos_right hn_upper resolution_pos
        _ = 2 ^ (l + 1 + 1074) := pow_mul_resolution (l + 1)
        _ = 2 ^ 54 * (2 ^ k * 2 ^ e) := by rw [← Nat.pow_add, ← Nat.pow_add]; congr 1; omega
        _ ≤ 2 ^ 54 * (d * 2 ^ e) := Nat.mul_le_mul_left _ (Nat.mul_le_mul_right _ hd_lower)
        _ = 2 * (2 * exponentWeight * (d * 2 ^ e)) := by rw [hweight]; ring
    split
    · next hfits => exact ⟨hfits, Or.inr hlower⟩
    · next hfits =>
      rw [Nat.pow_succ]
      exact ⟨by linarith, Or.inr (by linarith)⟩

theorem two_pow_le_gap {p m : Nat} (h : p = 0 ∨ exponentWeight ≤ m) :
    2 ^ p ≤ gap (p * exponentWeight + m) := by
  rcases h with rfl | h
  · exact gap_pos _
  · apply Nat.pow_le_pow_right (by decide)
    apply Nat.le_sub_one_of_lt
    apply (Nat.le_div_iff_mul_le (by decide)).mpr
    rw [Nat.succ_mul]
    exact Nat.add_le_add_left h _

/-- A magnitude rounds to the nearest step of its grid. -/
theorem rounds_of_grid {p m : Nat} (hm : p = 0 ∨ exponentWeight ≤ m) (hm' : m ≤ 2 * exponentWeight)
    (hq : 0 ≤ q) (hgrid : p = 0 ∨ exponentWeight * 2 ^ p ≤ q) (hupper : 2 * q ≤ (2 * m + 1) * 2 ^ p)
    (hlower : 2 * m * 2 ^ p ≤ 2 * q + 2 ^ p)
    (hstrict : m % 2 = 1 → 2 * q < (2 * m + 1) * 2 ^ p ∧ 2 * m * 2 ^ p < 2 * q + 2 ^ p) :
    Rounds (p * exponentWeight + m) q := by
  have hstep : (quanta (p * exponentWeight + m) : ℚ) = m * 2 ^ p := by
    rw [quanta_eq hm hm']
    push_cast
    rfl
  have hnext : (quanta (p * exponentWeight + m) + 2 ^ p : ℚ) ≤
      quanta (p * exponentWeight + m + 1) := by
    have hgap : ((2 ^ p : Nat) : ℚ) ≤ gap (p * exponentWeight + m) :=
      Nat.cast_le.mpr (two_pow_le_gap hm)
    rw [quanta_succ]
    push_cast at hgap ⊢
    linarith
  have hparity : (p * exponentWeight + m) % 2 = m % 2 := by
    unfold exponentWeight
    omega
  by_cases hprevious : 0 < m ∧ (p = 0 ∨ exponentWeight ≤ m - 1)
  · obtain ⟨hpos, hm''⟩ := hprevious
    have hbelow : (quanta (p * exponentWeight + m - 1) : ℚ) = (m - 1) * 2 ^ p := by
      rw [Nat.add_sub_assoc hpos, quanta_eq hm'' (by omega)]
      push_cast [Nat.cast_sub hpos]
      rfl
    constructor
    · linarith
    · linarith
    · intro hodd
      obtain ⟨hlt, hgt⟩ := hstrict (hparity ▸ hodd)
      constructor <;> linarith
  · -- The number is below the least step above zero, or the step begins a binade.
    have heven : m % 2 = 0 := by
      unfold exponentWeight at *
      omega
    have hbelow : (quanta (p * exponentWeight + m - 1) : ℚ) ≤ m * 2 ^ p := by
      rw [← hstep]
      exact cast_quanta_le (Nat.sub_le _ 1)
    have hle : (m * 2 ^ p : ℚ) ≤ q := by
      rcases Nat.eq_zero_or_pos m with rfl | hpos
      · simpa using hq
      · have hp : p ≠ 0 := fun hp => hprevious ⟨hpos, Or.inl hp⟩
        have hfirst : m = exponentWeight := by
          have := hm.resolve_left hp
          have : ¬ exponentWeight ≤ m - 1 := fun h => hprevious ⟨hpos, Or.inr h⟩
          omega
        rw [hfirst]
        exact hgrid.resolve_left hp
    refine ⟨by linarith, by linarith, fun hodd => ?_⟩
    omega

/-- The bits of the nearest double, at most those of infinity. -/
theorem exists_rounds (n : Nat) (hd : d ≠ 0) :
    ∃ b, nearestBits n d = min b infinityBits ∧ Rounds b (n / d * resolution) := by
  by_cases hn : n = 0
  · subst hn
    have hzero : (quanta 0 : ℚ) = ((0 : Nat) : ℚ) / d * resolution := by
      rw [Nat.cast_zero, zero_div, zero_mul]
      exact Nat.cast_zero
    refine ⟨0, ?_, hzero ▸ rounds_quanta 0⟩
    rw [nearestBits, if_pos rfl, Nat.zero_min]
  · obtain ⟨hfits, hgrid⟩ := gridPower_spec hn hd
    refine ⟨_, nearestBits_eq hn, ?_⟩
    rw [Nat.pow_eq]
    generalize gridPower n d = p at *
    have hpos : 0 < d * 2 ^ p := Nat.mul_pos (Nat.pos_of_ne_zero hd) (Nat.two_pow_pos p)
    have hspec := roundHalfEven_spec (n * resolution) hpos
    generalize roundHalfEven (n * resolution) (d * 2 ^ p) = m at *
    obtain ⟨hupper, hlower, hstrict⟩ := hspec
    have hsteps : p = 0 ∨ exponentWeight ≤ m := by
      refine hgrid.imp_right fun h => ?_
      have hle : 2 * exponentWeight * (d * 2 ^ p) ≤ (2 * m + 1) * (d * 2 ^ p) := by linarith
      have := Nat.le_of_mul_le_mul_right hle hpos
      omega
    have hsteps' : m ≤ 2 * exponentWeight := by
      have hlt : 2 * m * (d * 2 ^ p) < (4 * exponentWeight + 1) * (d * 2 ^ p) := by linarith
      have := Nat.lt_of_mul_lt_mul_right hlt
      omega
    -- The inequalities between naturals are those of the quotient, times the divisor.
    have hd' : (0 : ℚ) < d := Nat.cast_pos.mpr (Nat.pos_of_ne_zero hd)
    have hnonneg : (0 : ℚ) ≤ n / d * resolution := by positivity
    have hq : (n * resolution : ℚ) = n / d * resolution * d := by field_simp
    generalize (n / d * resolution : ℚ) = q at *
    apply rounds_of_grid hsteps hsteps' hnonneg
    · refine hgrid.imp_right fun h => le_of_mul_le_mul_right ?_ hd'
      have hcast : (exponentWeight * (d * 2 ^ p) : ℚ) ≤ n * resolution := by exact_mod_cast h
      rw [← hq]
      linarith
    · refine le_of_mul_le_mul_right ?_ hd'
      have hcast : (2 * (n * resolution) : ℚ) ≤ (2 * m + 1) * (d * 2 ^ p) := by
        exact_mod_cast hupper
      linarith
    · refine le_of_mul_le_mul_right ?_ hd'
      have hcast : (2 * m * (d * 2 ^ p) : ℚ) ≤ 2 * (n * resolution) + d * 2 ^ p := by
        exact_mod_cast hlower
      linarith
    · intro hodd
      obtain ⟨hlt, hgt⟩ := hstrict hodd
      have hcast : (2 * (n * resolution) : ℚ) < (2 * m + 1) * (d * 2 ^ p) := by exact_mod_cast hlt
      have hcast' : (2 * m * (d * 2 ^ p) : ℚ) < 2 * (n * resolution) + d * 2 ^ p := by
        exact_mod_cast hgt
      exact ⟨lt_of_mul_lt_mul_right (by linarith) hd'.le,
        lt_of_mul_lt_mul_right (by linarith) hd'.le⟩

end TypedSyntax.Double
