import TypedSyntax.Proofs.Number.Shortest

/-!
# The double nearest to a number

A number that rounds to the bits of a magnitude is closer to it than to any other one,
or halfway between the two and the other one is odd. The nearest double of a sign is
therefore one double.
-/

namespace TypedSyntax.Double

variable {x y : Double} {q : ℚ} {b c : Nat}

/-- No double has a magnitude closer to the number, and the significand is even if
another magnitude is as close. An infinity counts with the magnitude that would follow the
greatest finite magnitude. -/
structure Nearest (q : ℚ) (x : Double) : Prop where
  isNaN_eq_false : x.isNaN = false
  le : ∀ y : Double, y.isNaN = false → |x.absValue - q| ≤ |y.absValue - q|
  even : ∀ y : Double, y.isNaN = false → y.absValue ≠ x.absValue →
    |x.absValue - q| = |y.absValue - q| → x.significand % 2 = 0

theorem abs_sub_lt_abs_sub_iff {u v : ℚ} :
    |v - q| < |u - q| ↔ (v - u) * (u + v - 2 * q) < 0 := by
  have hproduct : (v - q) ^ 2 - (u - q) ^ 2 = (v - u) * (u + v - 2 * q) := by ring
  rw [← sq_lt_sq, ← sub_neg, hproduct]

theorem abs_sub_eq_of_midpoint {u v : ℚ} (h : u + v = 2 * q) : |v - q| = |u - q| :=
  abs_eq_abs.mpr (Or.inr (by linarith))

/-- Of two magnitudes that are equally close to a number the one to which it rounds is
even, and the two are neighbours. -/
theorem Rounds.closer (h : Rounds b q) (hc : c ≠ b) :
    |quanta b - q| < |quanta c - q| ∨
      |quanta b - q| = |quanta c - q| ∧ b % 2 = 0 ∧ c % 2 = 1 := by
  have hinjective : ∀ {i j : Nat}, (quanta i : ℚ) = quanta j → i = j := fun heq =>
    quanta_strictMono.injective (Nat.cast_injective heq)
  rw [abs_sub_lt_abs_sub_iff]
  rcases Nat.lt_or_gt_of_ne hc with hlt | hgt
  · have hdist : (quanta c : ℚ) < quanta b := Nat.cast_lt.mpr (quanta_strictMono hlt)
    have hprev : (quanta c : ℚ) ≤ quanta (b - 1) := cast_quanta_le (by omega)
    have hlower := h.lower
    rcases lt_or_ge ((quanta c : ℚ) + quanta b) (2 * q) with hmid | hmid
    · exact Or.inl (mul_neg_of_pos_of_neg (by linarith) (by linarith))
    · obtain rfl : c = b - 1 := hinjective (by linarith)
      have heven : b % 2 = 0 := by
        by_contra hodd
        linarith [(h.strict (by omega)).1]
      exact Or.inr ⟨abs_sub_eq_of_midpoint (by linarith), heven, by omega⟩
  · have hdist : (quanta b : ℚ) < quanta c := Nat.cast_lt.mpr (quanta_strictMono hgt)
    have hnext : (quanta (b + 1) : ℚ) ≤ quanta c := cast_quanta_le hgt
    have hupper := h.upper
    rcases lt_or_ge (2 * q) ((quanta c : ℚ) + quanta b) with hmid | hmid
    · exact Or.inl (mul_neg_of_neg_of_pos (by linarith) (by linarith))
    · obtain rfl : b + 1 = c := hinjective (by linarith)
      have heven : b % 2 = 0 := by
        by_contra hodd
        linarith [(h.strict (by omega)).2]
      exact Or.inr ⟨abs_sub_eq_of_midpoint (by linarith), heven, by omega⟩

theorem abs_absValue_sub_mul_resolution (x : Double) (q : ℚ) :
    |x.absValue - q| * resolution = |quanta x.rank - q * resolution| := by
  have hresolution : (0 : ℚ) < resolution := Nat.cast_pos.mpr resolution_pos
  rw [← absValue_mul_resolution, ← sub_mul, abs_mul, abs_of_pos hresolution]

theorem absValue_eq_iff : x.absValue = y.absValue ↔ x.rank = y.rank := by
  have hresolution : (resolution : ℚ) ≠ 0 := Nat.cast_ne_zero.mpr resolution_pos.ne'
  rw [← mul_left_inj' hresolution, absValue_mul_resolution, absValue_mul_resolution, Nat.cast_inj,
    quanta_strictMono.injective.eq_iff]

/-- Every other double is farther from a number than the one to which it rounds, or as
far and then odd. -/
theorem closer_of_rounds (h : Rounds x.rank (q * resolution)) (hne : y.rank ≠ x.rank) :
    |x.absValue - q| < |y.absValue - q| ∨
      |x.absValue - q| = |y.absValue - q| ∧ x.significand % 2 = 0 ∧ y.significand % 2 = 1 := by
  have hresolution : (0 : ℚ) < resolution := Nat.cast_pos.mpr resolution_pos
  rw [← mul_lt_mul_iff_left₀ hresolution, ← mul_left_inj' hresolution.ne',
    abs_absValue_sub_mul_resolution, abs_absValue_sub_mul_resolution, significand_mod_two,
    significand_mod_two]
  exact h.closer hne

theorem exponentField_beq_of_isFinite (hx : x.isFinite = true) :
    (x.exponentField == 2047) = false := by
  simpa [isFinite] using hx

theorem isNaN_eq_false_of_isFinite (hx : x.isFinite = true) : x.isNaN = false := by
  rw [isNaN, exponentField_beq_of_isFinite hx, Bool.false_and]

theorem nearest_of_rounds (hx : x.isFinite = true) (h : Rounds x.rank (q * resolution)) :
    Nearest q x := by
  refine ⟨isNaN_eq_false_of_isFinite hx, fun y _ => ?_, fun y _ hne heq => ?_⟩
  · by_cases hrank : y.rank = x.rank
    · rw [absValue_eq_iff.mpr hrank]
    · exact (closer_of_rounds h hrank).elim le_of_lt fun hequal => hequal.1.le
  · rcases closer_of_rounds h fun hrank => hne (absValue_eq_iff.mpr hrank) with hlt | ⟨-, heven, -⟩
    · exact absurd heq hlt.ne
    · exact heven

/-- The doubles nearest to a number are the two with the bits to which it rounds. -/
theorem nearest_iff (hx : x.isFinite = true) (h : Rounds x.rank (q * resolution)) :
    Nearest q y ↔ y.rank = x.rank := by
  constructor
  · intro hy
    by_contra hne
    have hnan := isNaN_eq_false_of_isFinite hx
    rcases closer_of_rounds h hne with hlt | ⟨heq, -, hodd⟩
    · exact (hy.le x hnan).not_gt hlt
    · have heven := hy.even x hnan (fun hvalue => hne (absValue_eq_iff.mp hvalue.symm)) heq.symm
      omega
  · intro hrank
    have hy : y.isFinite = true := isFinite_iff.mpr (hrank ▸ isFinite_iff.mp hx)
    exact nearest_of_rounds hy (hrank ▸ h)

/-! ## Shortest decimals -/

theorem shortest_of_rank_eq_zero (tie : TieRule) (h : x.rank = 0) : x.shortest tie = ⟨0, 0⟩ :=
  if_pos (isZero_iff.mpr h)

/-- The shortest decimal of a double, which may be zero, rounds to the double. -/
theorem rounds_shortest (tie : TieRule) (x : Double) :
    Rounds x.rank ((x.shortest tie).value * resolution) := by
  rcases Nat.eq_zero_or_pos x.rank with hzero | hpos
  · have hvalue : Decimal.value ⟨0, 0⟩ * resolution = quanta 0 := by
      simp [Decimal.value, quanta]
    rw [shortest_of_rank_eq_zero tie hzero, hzero, hvalue]
    exact rounds_quanta 0
  · exact (writes_shortest tie hpos).rounds

end TypedSyntax.Double
