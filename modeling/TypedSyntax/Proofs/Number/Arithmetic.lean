import TypedSyntax.Proofs.Number.Rounding

/-!
# Arithmetic of doubles

The bits of a result are those to which the exact result rounds. Integers below 2⁵³
times powers of two are doubles themselves.
-/

namespace TypedSyntax.Double

/-- The bits without the sign. -/
def rank (x : Double) : Nat :=
  x.bits.toNat % signWeight

/-- The magnitude of a double. -/
def absValue (x : Double) : ℚ :=
  x.ratio.1 / x.ratio.2

variable {x y : Double}

theorem exponentField_eq (x : Double) : x.exponentField = x.rank / exponentWeight := by
  have h : signWeight = exponentWeight * 2048 := rfl
  rw [exponentField, rank, h, Nat.mod_mul_right_div_self]

theorem fractionField_eq (x : Double) : x.fractionField = x.rank % exponentWeight := by
  rw [fractionField, rank, Nat.mod_mod_of_dvd]
  exact ⟨2048, rfl⟩

/-- The finite doubles are those below infinity. -/
theorem isFinite_iff : x.isFinite = true ↔ x.rank < infinityBits := by
  have hrank : x.rank < signWeight := Nat.mod_lt _ (by decide)
  rw [isFinite, bne_iff_ne, exponentField_eq]
  unfold infinityBits exponentWeight signWeight at *
  omega

theorem isZero_iff : x.isZero = true ↔ x.rank = 0 := by
  have h := Nat.div_add_mod x.rank exponentWeight
  rw [isZero, Bool.and_eq_true, beq_iff_eq, beq_iff_eq, exponentField_eq, fractionField_eq]
  constructor
  · rintro ⟨hdiv, hmod⟩
    rw [← h, hdiv, hmod, Nat.mul_zero]
  · intro hrank
    rw [hrank]
    exact ⟨Nat.zero_div _, Nat.zero_mod _⟩

/-- The magnitude of a double in units of the least one. -/
theorem significand_mul_pow (x : Double) : x.significand * 2 ^ x.biasedPower = quanta x.rank := by
  have hdiv : x.rank / exponentWeight = 0 ↔ x.rank < exponentWeight :=
    Nat.div_eq_zero_iff_lt (by decide)
  rw [significand, biasedPower, exponentField_eq, fractionField_eq, quanta]
  by_cases h : x.rank < exponentWeight
  · rw [if_pos h, if_pos (hdiv.mpr h), hdiv.mpr h, Nat.mod_eq_of_lt h]
    exact Nat.mul_one _
  · rw [if_neg h, if_neg (mt hdiv.mp h)]

theorem ratio_snd_pos (x : Double) : 0 < x.ratio.2 := by
  unfold ratio
  split
  · exact Nat.one_pos
  · exact Nat.two_pow_pos _

/-- The ratio of a double is its magnitude. -/
theorem ratio_mul_resolution (x : Double) :
    x.ratio.1 * resolution = quanta x.rank * x.ratio.2 := by
  rw [← significand_mul_pow]
  unfold ratio
  split
  · next h =>
    rw [Nat.pow_eq, Nat.mul_assoc, pow_mul_resolution, Nat.sub_add_cancel h, Nat.mul_one]
  · next h =>
    rw [resolution_eq (Nat.le_of_not_le h), Nat.mul_assoc, Nat.pow_eq]

theorem absValue_mul_resolution (x : Double) : x.absValue * resolution = quanta x.rank := by
  have hpos : (0 : ℚ) < x.ratio.2 := Nat.cast_pos.mpr x.ratio_snd_pos
  have h : (x.ratio.1 * resolution : ℚ) = quanta x.rank * x.ratio.2 := by
    exact_mod_cast x.ratio_mul_resolution
  rw [absValue, div_mul_eq_mul_div, h, mul_div_cancel_right₀ _ hpos.ne']

theorem absValue_nonneg (x : Double) : 0 ≤ x.absValue :=
  div_nonneg (Nat.cast_nonneg _) (Nat.cast_nonneg _)

theorem absValue_pos (h : 0 < x.rank) : 0 < x.absValue := by
  have hpos : (0 : ℚ) < quanta x.rank := Nat.cast_pos.mpr (quanta_strictMono h)
  rw [← absValue_mul_resolution] at hpos
  exact pos_of_mul_pos_left hpos (Nat.cast_nonneg _)

/-! ## Signs -/

theorem bits_eq (x : Double) :
    x.bits.toNat = (if x.isNegative then signWeight else 0) + x.rank := by
  have hlt : x.bits.toNat < 2 * signWeight := x.bits.isLt
  unfold rank isNegative
  by_cases h : signWeight ≤ x.bits.toNat
  · rw [if_pos (decide_eq_true h), Nat.mod_eq_sub_mod h, Nat.mod_eq_of_lt (by omega)]
    exact (Nat.add_sub_cancel' h).symm
  · rw [if_neg (by simpa using h), Nat.mod_eq_of_lt (by omega), Nat.zero_add]

/-- A double is known by its sign and the other bits. -/
theorem ext_rank (hsign : x.isNegative = y.isNegative) (h : x.rank = y.rank) : x = y := by
  have hbits : x.bits = y.bits := BitVec.eq_of_toNat_eq (by rw [bits_eq x, bits_eq y, hsign, h])
  obtain ⟨xbits⟩ := x
  obtain ⟨ybits⟩ := y
  rw [show xbits = ybits from hbits]

theorem toNat_bits_withSign (negative : Bool) (x : Double) :
    (withSign negative x).bits.toNat = (if negative then signWeight else 0) + x.rank := by
  have hlt : x.rank < signWeight := Nat.mod_lt _ (by decide)
  rw [withSign, BitVec.toNat_ofNat, ← rank]
  apply Nat.mod_eq_of_lt
  unfold signWeight at *
  cases negative <;> simp <;> omega

theorem rank_withSign (negative : Bool) (x : Double) : (withSign negative x).rank = x.rank := by
  have hlt : x.rank < signWeight := Nat.mod_lt _ (by decide)
  rw [rank, toNat_bits_withSign]
  cases negative with
  | false => rw [if_neg (by decide), Nat.zero_add, Nat.mod_eq_of_lt hlt]
  | true => rw [if_pos rfl, Nat.add_mod_left, Nat.mod_eq_of_lt hlt]

theorem isNegative_withSign (negative : Bool) (x : Double) :
    (withSign negative x).isNegative = negative := by
  have hlt : x.rank < signWeight := Nat.mod_lt _ (by decide)
  rw [isNegative, toNat_bits_withSign]
  cases negative with
  | false => exact decide_eq_false (by rw [if_neg (by decide), Nat.zero_add]; omega)
  | true => exact decide_eq_true (by rw [if_pos rfl]; omega)

theorem isFinite_withSign (negative : Bool) (x : Double) :
    (withSign negative x).isFinite = x.isFinite := by
  rw [Bool.eq_iff_iff, isFinite_iff, isFinite_iff, rank_withSign]

/-! ## Rounded results -/

variable {n d : Nat} {negative : Bool}

/-- Rounding gives at most infinity. -/
theorem nearestBits_le (n d : Nat) : nearestBits n d ≤ infinityBits := by
  rw [nearestBits]
  split
  · exact Nat.zero_le _
  · exact Nat.min_le_right _ _

/-- A sign does not change what a ratio rounds to. -/
theorem rank_ofRatio (negative : Bool) (n d : Nat) :
    (ofRatio negative n d).rank = nearestBits n d := by
  have hle := nearestBits_le n d
  rw [ofRatio, rank, BitVec.toNat_ofNat]
  generalize nearestBits n d = b at *
  unfold infinityBits exponentWeight at hle
  unfold signWeight
  cases negative <;> simp <;> omega

/-- A finite result has the bits to which the exact result rounds. -/
theorem rounds_ofRatio (hd : d ≠ 0) (h : (ofRatio negative n d).isFinite = true) :
    Rounds (ofRatio negative n d).rank (n / d * resolution) := by
  obtain ⟨b, hb, hrounds⟩ := exists_rounds n hd
  rw [isFinite_iff, rank_ofRatio] at h
  have hrank : nearestBits n d = b := by omega
  rw [rank_ofRatio, hrank]
  exact hrounds

/-- A result is finite if it rounds to bits below those of infinity. -/
theorem isFinite_ofRatio {b : Nat} (hd : d ≠ 0) (h : Rounds b (n / d * resolution))
    (hb : b < infinityBits) : (ofRatio negative n d).isFinite = true := by
  obtain ⟨b', hb', hrounds⟩ := exists_rounds n hd
  obtain rfl := hrounds.unique h
  rw [isFinite_iff, rank_ofRatio]
  omega

theorem ratio_fst_ne_zero (h : 0 < x.rank) : x.ratio.1 ≠ 0 := by
  intro hzero
  have hpos := absValue_pos h
  rw [absValue, hzero, Nat.cast_zero, zero_div] at hpos
  exact lt_irrefl _ hpos

theorem ratio_ne_zero (hy : 0 < y.rank) : x.ratio.2 * y.ratio.1 ≠ 0 :=
  Nat.mul_ne_zero x.ratio_snd_pos.ne' (ratio_fst_ne_zero hy)

/-- A finite double whose bits without the sign are at most so many away. -/
structure Near (k b : Nat) (x : Double) : Prop where
  finite : x.isFinite = true
  le : x.rank ≤ b + k
  ge : b ≤ x.rank + k

theorem near_withSign {k b : Nat} (negative : Bool) (h : Near k b x) :
    Near k b (x.withSign negative) := by
  obtain ⟨hfinite, hle, hge⟩ := h
  refine ⟨?_, ?_, ?_⟩
  · rw [isFinite_withSign, hfinite]
  · rw [rank_withSign]
    exact hle
  · rw [rank_withSign]
    exact hge

/-- A result is close to what a close number rounds to. -/
theorem near_ofRatio {b k : Nat} {q : ℚ} (hd : d ≠ 0) (h : Rounds b q)
    (hq : Within k q (n / d * resolution)) (hb : b + k < infinityBits) :
    Near k b (ofRatio negative n d) := by
  obtain ⟨b', -, hrounds⟩ := exists_rounds n hd
  have hfinite : (ofRatio negative n d).isFinite = true :=
    isFinite_ofRatio hd hrounds (Nat.lt_of_le_of_lt (h.dist_le hrounds hq).1 hb)
  obtain ⟨hle, hge⟩ := h.dist_le (rounds_ofRatio hd hfinite) hq
  exact ⟨hfinite, hle, hge⟩

/-- A product of roundings is near the rounded product. -/
theorem near_mulMagnitude {b k : Nat} {v : ℚ} (h : Rounds b (v * resolution))
    (hv : Within k v (x.absValue * y.absValue)) (hb : b + k < infinityBits) :
    Near k b (x.mulMagnitude y) := by
  apply near_ofRatio (Nat.mul_ne_zero x.ratio_snd_pos.ne' y.ratio_snd_pos.ne') h ?_ hb
  push_cast
  rw [← div_mul_div_comm]
  exact hv.mul_right (Nat.cast_nonneg _)

/-- A quotient of roundings is near the rounded quotient. -/
theorem near_divMagnitude {b k : Nat} {v : ℚ} (hy : 0 < y.rank) (h : Rounds b (v * resolution))
    (hv : Within k v (x.absValue / y.absValue)) (hb : b + k < infinityBits) :
    Near k b (x.divMagnitude y) := by
  apply near_ofRatio (ratio_ne_zero hy) h ?_ hb
  push_cast
  rw [← div_div_div_eq]
  exact hv.mul_right (Nat.cast_nonneg _)

/-- A division by at least one leaves the finite range nowhere. -/
theorem isFinite_divMagnitude (hx : x.isFinite = true) (hy : 0 < y.rank) (hone : 1 ≤ y.absValue) :
    (x.divMagnitude y).isFinite = true := by
  obtain ⟨b, -, hb⟩ := exists_rounds (x.ratio.1 * y.ratio.2) (ratio_ne_zero (x := x) hy)
  refine isFinite_ofRatio (ratio_ne_zero hy) hb (Nat.lt_of_le_of_lt ?_ (isFinite_iff.mp hx))
  apply hb.le (rounds_quanta x.rank)
  push_cast
  rw [← div_div_div_eq, ← absValue_mul_resolution]
  exact mul_le_mul_of_nonneg_right (div_le_self x.absValue_nonneg hone) (Nat.cast_nonneg _)

/-- A quotient of doubles is the rounded quotient of their magnitudes. -/
theorem rounds_divMagnitude (hy : 0 < y.rank) (h : (x.divMagnitude y).isFinite = true) :
    Rounds (x.divMagnitude y).rank (x.absValue / y.absValue * resolution) := by
  have hrounds := rounds_ofRatio (ratio_ne_zero hy) h
  push_cast at hrounds
  rwa [← div_div_div_eq] at hrounds

/-- A rounded magnitude is within one rounding, unless it is subnormal. -/
theorem within_absValue {v : ℚ} (h : Rounds x.rank (v * resolution))
    (hv : (exponentWeight : ℚ) ≤ v * resolution) : Within 1 v x.absValue := by
  have hpos : (0 : ℚ) < resolution := Nat.cast_pos.mpr resolution_pos
  have hwithin := h.within hv
  rw [← absValue_mul_resolution] at hwithin
  exact hwithin.of_mul_right hpos

/-- A magnitude that needs no rounding is kept. -/
theorem absValue_eq_of_rounds {v : ℚ} {b : Nat} (h : Rounds x.rank (v * resolution))
    (hb : (quanta b : ℚ) = v * resolution) : x.absValue = v := by
  have hpos : (0 : ℚ) < resolution := Nat.cast_pos.mpr resolution_pos
  have hrank : x.rank = b := h.unique (hb ▸ rounds_quanta b)
  apply mul_right_cancel₀ hpos.ne'
  rw [absValue_mul_resolution, hrank, hb]

/-! ## Integers and powers of ten -/

/-- An integer of 53 bits times a power of two is the magnitude of a double. -/
theorem exists_quanta_eq {a : Nat} (k : Nat) (ha : a < 2 ^ 53) :
    ∃ b, quanta b = a * 2 ^ k * resolution := by
  rcases Nat.eq_zero_or_pos a with rfl | hpos
  · exact ⟨0, by simp [quanta]⟩
  have hn : a * 2 ^ k ≠ 0 := (Nat.mul_pos hpos (Nat.two_pow_pos k)).ne'
  obtain ⟨hfits, hgrid⟩ := gridPower_spec hn one_ne_zero
  generalize gridPower (a * 2 ^ k) 1 = p at *
  rw [Nat.one_mul, Nat.mul_assoc, pow_mul_resolution] at hfits hgrid
  have hp : p ≤ k + 1074 := by
    rcases hgrid with rfl | hgrid
    · exact Nat.zero_le _
    · have hlt : 2 ^ (52 + p) < 2 ^ (53 + (k + 1074)) := by
        calc
          2 ^ (52 + p) = exponentWeight * 2 ^ p := Nat.pow_add 2 52 p
          _ ≤ a * 2 ^ (k + 1074) := hgrid
          _ < 2 ^ 53 * 2 ^ (k + 1074) := Nat.mul_lt_mul_of_pos_right ha (Nat.two_pow_pos _)
          _ = 2 ^ (53 + (k + 1074)) := (Nat.pow_add 2 53 _).symm
      have := (Nat.pow_lt_pow_iff_right (by decide)).mp hlt
      omega
  have hsplit : a * 2 ^ (k + 1074) = a * 2 ^ (k + 1074 - p) * 2 ^ p := by
    rw [Nat.mul_assoc, ← Nat.pow_add, Nat.sub_add_cancel hp]
  rw [hsplit] at hfits hgrid
  refine ⟨p * exponentWeight + a * 2 ^ (k + 1074 - p), ?_⟩
  rw [Nat.mul_assoc, pow_mul_resolution, hsplit]
  apply quanta_eq
  · exact hgrid.imp_right fun h => Nat.le_of_mul_le_mul_right h (Nat.two_pow_pos p)
  · exact (Nat.lt_of_mul_lt_mul_right hfits).le

/-- The greatest power of ten that does not exceed the doubles. -/
@[irreducible] def reach : Nat :=
  Nat.pow 10 308

theorem pow_le_reach {k : Nat} (hk : k ≤ 308) : 10 ^ k ≤ reach := by
  have h : ∀ n m, n = Nat.pow 10 m → k ≤ m → 10 ^ k ≤ n :=
    fun n m hn hm => hn ▸ Nat.pow_le_pow_right (by decide) hm
  unfold reach
  exact h _ _ rfl hk

theorem reach_pos : 0 < reach :=
  Nat.lt_of_lt_of_le Nat.one_pos (pow_le_reach (Nat.zero_le 308))

/-- The double nearest to a natural number. -/
def ofNatural (n : Nat) : Double :=
  ofRatio false n 1

theorem isFinite_ofNatural_reach : (ofNatural reach).isFinite = true := by
  unfold reach
  decide +kernel

/-- A natural number within reach is finite and rounded. -/
theorem rounds_ofNatural (hn : n ≤ reach) :
    (ofNatural n).isFinite = true ∧ Rounds (ofNatural n).rank (n * resolution) := by
  have hmax := rounds_ofRatio one_ne_zero isFinite_ofNatural_reach
  have hbits := isFinite_iff.mp isFinite_ofNatural_reach
  obtain ⟨b, -, hb⟩ := exists_rounds n one_ne_zero
  have hle : ((n : ℚ) / (1 : Nat) * resolution) ≤ (reach : ℚ) / (1 : Nat) * resolution := by
    gcongr
  have hfinite : (ofNatural n).isFinite = true :=
    isFinite_ofRatio one_ne_zero hb (Nat.lt_of_le_of_lt (hb.le hmax hle) hbits)
  refine ⟨hfinite, ?_⟩
  have hrounds := rounds_ofRatio one_ne_zero hfinite
  rwa [Nat.cast_one, div_one] at hrounds

theorem within_ofNatural (hpos : 0 < n) (hn : n ≤ reach) :
    Within 1 (n : ℚ) (ofNatural n).absValue := by
  apply within_absValue (rounds_ofNatural hn).2
  have hle : exponentWeight ≤ n * resolution :=
    weight_le_resolution.trans (Nat.le_mul_of_pos_left _ hpos)
  exact_mod_cast hle

/-- A natural number of at most 53 significant bits is kept. -/
theorem absValue_ofNatural {a k : Nat} (ha : a < 2 ^ 53) (hn : n ≤ reach) (h : n = a * 2 ^ k) :
    (ofNatural n).absValue = n := by
  obtain ⟨b, hb⟩ := exists_quanta_eq k ha
  apply absValue_eq_of_rounds (rounds_ofNatural hn).2 (b := b)
  rw [hb, ← h]
  push_cast
  rfl

theorem rank_ofNatural_pos (hpos : 0 < n) (hn : n ≤ reach) : 0 < (ofNatural n).rank := by
  have hone : (ofNatural 1).rank ≤ (ofNatural n).rank := by
    have hle : (((1 : Nat) : ℚ) * resolution) ≤ n * resolution := by
      gcongr
      exact hpos
    exact (rounds_ofNatural (Nat.le_trans hpos hn)).2.le (rounds_ofNatural hn).2 hle
  exact Nat.lt_of_lt_of_le (by decide +kernel) hone

/-- A power of ten is within one rounding. -/
theorem within_powerOfTen {k : Nat} (hk : k ≤ 308) :
    Within 1 ((10 : ℚ) ^ k) (powerOfTen k).absValue := by
  have h := within_ofNatural (Nat.pow_pos (n := k) (show 0 < 10 by decide)) (pow_le_reach hk)
  push_cast at h
  exact h

theorem rank_powerOfTen_pos {k : Nat} (hk : k ≤ 308) : 0 < (powerOfTen k).rank :=
  rank_ofNatural_pos (Nat.pow_pos (by decide)) (pow_le_reach hk)

/-- Up to 10²² powers of ten are doubles. -/
theorem absValue_powerOfTen {k : Nat} (hk : k ≤ 22) : (powerOfTen k).absValue = (10 : ℚ) ^ k := by
  have hfive : 5 ^ k < 2 ^ 53 :=
    Nat.lt_of_le_of_lt (Nat.pow_le_pow_right (by decide) hk) (by decide)
  have h := absValue_ofNatural hfive (pow_le_reach (hk.trans (by decide))) (k := k)
    (by rw [← Nat.mul_pow])
  push_cast at h
  exact h

end TypedSyntax.Double
