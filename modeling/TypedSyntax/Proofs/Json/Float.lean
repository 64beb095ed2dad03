import TypedSyntax.Proofs.Json.Codec
import TypedSyntax.Proofs.Json.Decimal
import TypedSyntax.Proofs.Json.Scaling

/-!
# Doubles through JSON

The text of a finite double writes a decimal that rounds to the double. The decimal is
read with a few roundings, so that a neighbour of the double may be read.
-/

namespace TypedSyntax.Json

open Double FloatLayout

variable {s : Nat} {e : Int} {negative : Bool} {ws fs es : List Char} {exponent : Option Int}

namespace NumberText

/-- A number with a fraction or an exponent, all of whose digits fit the significand, is
its significand scaled by the power of ten. -/
theorem value?_eq {n : NumberText} (hs : n.significand < significandBound)
    (hform : n.fraction ≠ [] ∨ n.exponent? ≠ none) :
    n.value? = (scale? (ofNatural n.significand) n.power).map
      fun y => .float (y.withSign n.negative) := by
  obtain ⟨negative, whole, fraction, exponent⟩ := n
  rw [significand, Text.ofDigits, List.foldl_append] at hs
  have hwhole := addWhole_eq (Nat.lt_of_le_of_lt (le_foldl_digits fraction _) hs)
  have hfraction := addFraction_eq hs
  have hfloat : ¬ (fraction = [] ∧ exponent = none ∧ True) := by
    rintro ⟨hnil, hnone, -⟩
    exact hform.elim (fun hne => hne hnil) fun hne => hne hnone
  have hpower : ((0 : Nat) : Int) - fraction.length + exponent.getD 0 =
      exponent.getD 0 - fraction.length := by omega
  rw [value?, significand, power, Text.ofDigits, List.foldl_append]
  simp only [hwhole, hfraction, hpower]
  rw [if_neg hfloat]
  rfl

end NumberText

end TypedSyntax.Json

namespace TypedSyntax.Double

open Json FloatLayout

variable {x : Double}

/-- The significand and the power of ten with which the JSON text of a finite double is
read. A positional text ends in a fraction, if only of zero. -/
def written (x : Double) : Nat × Int :=
  let d := x.shortest numberLayout.tie
  if -5 ≤ d.leadingExponent ∧ d.leadingExponent ≤ 15 then (d.pointed.1, -(d.pointed.2 : Int))
  else (d.digits, d.exponent)

theorem pointed_lt {d : Decimal} (hd : d.digits ≤ 10 ^ 17) (h : d.leadingExponent ≤ 15) :
    d.pointed.1 < significandBound := by
  unfold Decimal.pointed
  split
  · next hexponent =>
    have hlength : 0 < d.digits.repr.length := Nat.length_repr_pos
    have hdigits : d.digits < 10 ^ d.digits.repr.length :=
      (Nat.length_repr_le_iff hlength).mp le_rfl
    have hplaces : d.digits.repr.length + (d.exponent.toNat + 1) ≤ 17 := by
      rw [Decimal.leadingExponent, Nat.toString_eq_repr] at h
      omega
    calc
      d.digits * 10 ^ (d.exponent.toNat + 1)
        ≤ 10 ^ d.digits.repr.length * 10 ^ (d.exponent.toNat + 1) :=
        Nat.mul_le_mul_right _ hdigits.le
      _ = 10 ^ (d.digits.repr.length + (d.exponent.toNat + 1)) := (Nat.pow_add 10 _ _).symm
      _ ≤ 10 ^ 17 := Nat.pow_le_pow_right (by decide) hplaces
      _ < significandBound := by decide
  · exact Nat.lt_of_le_of_lt hd (by decide)

/-- Finite doubles are below the next power of ten. -/
theorem exponent_le_of_rounds {c : Decimal} (hpos : 0 < c.digits) (hx : x.isFinite = true)
    (h : Rounds x.rank (c.value * resolution)) : c.exponent ≤ 308 := by
  have hmax : quanta infinityBits < Nat.pow 10 309 * resolution := by
    unfold resolution
    decide +kernel
  have hlt : ∀ m : Nat, quanta infinityBits < Nat.pow 10 m * resolution → c.exponent < m := by
    intro m hm
    have hm' : (quanta infinityBits : ℚ) < 10 ^ m * resolution := by exact_mod_cast hm
    have hrank := isFinite_iff.mp hx
    have hle : (quanta x.rank : ℚ) ≤ quanta infinityBits := cast_quanta_le hrank.le
    have hle' : (quanta (x.rank + 1) : ℚ) ≤ quanta infinityBits := cast_quanta_le hrank
    have hvalue : c.value * resolution < 10 ^ m * resolution := by linarith [h.upper]
    have hpower : (10 : ℚ) ^ c.exponent ≤ c.value :=
      le_mul_of_one_le_left (ten_zpow_pos _).le (by exact_mod_cast hpos)
    have hlt := hpower.trans_lt (lt_of_mul_lt_mul_right hvalue (Nat.cast_nonneg _))
    rw [← zpow_natCast] at hlt
    exact (zpow_lt_zpow_iff_right₀ (by norm_num)).mp hlt
  have hbound := hlt _ hmax
  omega

/-- A number with which a positive double is read: it rounds to the double, and it is in
the range of the reader. -/
structure Scalable (x : Double) (s : Nat) (e : Int) : Prop where
  pos : 0 < s
  lt : s < significandBound
  ge : -330 ≤ e
  le : e ≤ 308
  rounds : Rounds x.rank (s * (10 : ℚ) ^ e * resolution)

theorem scalable_written (hx : x.isFinite = true) (h : 0 < x.rank) :
    Scalable x x.written.1 x.written.2 := by
  obtain ⟨hpos, hle, hge, hrounds⟩ := writes_shortest numberLayout.tie h
  have hmax := exponent_le_of_rounds hpos hx hrounds
  unfold written
  generalize x.shortest numberLayout.tie = d at *
  dsimp only
  split
  · next hpositional =>
    refine ⟨(pointed_pos hpos).1, pointed_lt hle hpositional.2, ?_, by dsimp only; omega, ?_⟩
    · unfold Decimal.pointed
      dsimp only
      split <;> omega
    · rwa [value_pointed]
  · exact ⟨hpos, Nat.lt_of_le_of_lt hle (by decide), by dsimp only; omega, hmax, hrounds⟩

theorem written_of_rank_eq_zero (h : x.rank = 0) : x.written = (0, -1) := by
  rw [written, shortest_of_rank_eq_zero numberLayout.tie h]
  decide

/-- The layout shows the doubles from 10⁻⁵ up to 10¹⁶ positionally. -/
theorem shown_numberLayout (x : Double) : numberLayout.shown x = x.written := by
  unfold shown written
  rcases Nat.eq_zero_or_pos x.rank with hzero | hpos
  · rw [shortest_of_rank_eq_zero numberLayout.tie hzero, isZero_iff.mpr hzero]
    decide
  · have hzero : x.isZero = false := Bool.eq_false_iff.mpr fun h => hpos.ne' (isZero_iff.mp h)
    have hlayout : ∀ leading : Int, (x.isZero ||
        !(numberLayout.least?.any (leading < ·)) && decide (leading ≤ numberLayout.greatest)) =
          decide (-5 ≤ leading ∧ leading ≤ 15) := by
      intro leading
      have hsmall : (!(decide (leading < -5))) = decide (-5 ≤ leading) := by
        rw [← decide_not]
        exact decide_eq_decide.mpr Int.not_lt
      rw [hzero, Bool.false_or, Bool.decide_and, ← hsmall]
      rfl
    simp only [hlayout, decide_eq_true_eq]

theorem exists_numeral_text (x : Double) :
    ∃ n, Denotes n x.isNegative x.written.1 x.written.2 ∧
      Numeral n (numberLayout.text x).toList :=
  shown_numberLayout x ▸ exists_numeral_layout numberLayout x

/-! ## Reading back -/

theorem rounds_written (x : Double) :
    Rounds x.rank (x.written.1 * (10 : ℚ) ^ x.written.2 * resolution) := by
  rw [← shown_numberLayout, value_shown]
  exact rounds_shortest numberLayout.tie x

theorem written_lt (hx : x.isFinite = true) : x.written.1 < significandBound := by
  rcases Nat.eq_zero_or_pos x.rank with hzero | hpos
  · rw [written_of_rank_eq_zero hzero]
    decide
  · exact (scalable_written hx hpos).lt

theorem two_le_roundings (e : Int) : 2 ≤ roundings e := by
  unfold roundings
  split <;> decide

/-- At the end of the finite range, where a few more doubles would be infinite, no
result is. -/
theorem near_greatest : ∀ negative : Bool, ∀ i < 3,
    let x := withSign negative ⟨BitVec.ofNat 64 (infinityBits - 1 - i)⟩
    (scale? (ofNatural x.written.1) x.written.2).any (fun y =>
      y.isFinite && decide (y.rank ≤ x.rank + 2) && decide (x.rank ≤ y.rank + 2)) = true := by
  decide +kernel

/-- What is read of a finite double is as close as the roundings allow. -/
theorem near_scale?_written (hx : x.isFinite = true) :
    ∃ y, scale? (ofNatural x.written.1) x.written.2 = some y ∧
      Near (roundings x.written.2) x.rank y := by
  have hrank := isFinite_iff.mp hx
  rcases Nat.eq_zero_or_pos x.rank with hzero | hpos
  · have hwritten := written_of_rank_eq_zero hzero
    obtain ⟨y, hy, hfinite, hread⟩ := exact_scale? (by rw [hwritten]; decide)
      (by rw [hwritten]; decide) (rounds_written x) hrank
    exact ⟨y, hy, hfinite, by omega, by omega⟩
  · obtain ⟨hspos, hs, he, he', hrounds⟩ := scalable_written hx hpos
    rcases Nat.lt_or_ge (x.rank + roundings x.written.2) infinityBits with hlt | hge
    · exact near_scale?_roundings hspos hs he he' hrounds hlt
    · have hthree : roundings x.written.2 ≤ 3 := by
        unfold roundings
        split <;> decide
      obtain ⟨i, hi, hx'⟩ : ∃ i < 3, x.rank = infinityBits - 1 - i :=
        ⟨infinityBits - 1 - x.rank, by omega, by omega⟩
      have hgreatest := near_greatest x.isNegative i hi
      have heq : withSign x.isNegative ⟨BitVec.ofNat 64 (infinityBits - 1 - i)⟩ = x := by
        apply ext_rank (isNegative_withSign _ _)
        rw [rank_withSign, hx', rank, BitVec.toNat_ofNat]
        unfold infinityBits signWeight exponentWeight
        omega
      dsimp only at hgreatest
      rw [heq] at hgreatest
      obtain ⟨y, hy, hnear⟩ := (Option.any_eq_true _ _).mp hgreatest
      simp only [Bool.and_eq_true, decide_eq_true_eq] at hnear
      obtain ⟨⟨hfinite, hle⟩, hge'⟩ := hnear
      have htwo := two_le_roundings x.written.2
      exact ⟨y, hy, hfinite, by omega, by omega⟩

end TypedSyntax.Double

namespace TypedSyntax.Datum

open Json Double

/-- The JSON text of a finite double is a number that rounds to the double. Read back it
is a finite double of the same sign whose other bits are two or three off at most, and
the same one if its digits have 53 bits and its power of ten is at most 10²². -/
theorem ofJson?_json_float (x : Double) (hx : x.isFinite = true) :
    ∃ n y, Value.ofText? (Datum.float x).json = some (.number n) ∧
      Rounds x.rank (n.significand * (10 : ℚ) ^ n.power * resolution) ∧
      ofJson? (Datum.float x).json = some (.float y) ∧
      ofJson? (Datum.float x).compactJson = some (.float y) ∧
      y.isNegative = x.isNegative ∧ Near (roundings n.power) x.rank y ∧
      (n.significand < 2 ^ 53 → n.power.natAbs ≤ 22 → y = x) := by
  obtain ⟨n, ⟨hfloat, hnegative, hsignificand, hpower⟩, hnumeral⟩ := exists_numeral_text x
  obtain ⟨y, hy, hnear⟩ := near_scale?_written hx
  have hrounds := rounds_written x
  have hbound := written_lt hx
  rw [← hsignificand, ← hpower] at hy hrounds
  rw [← hpower] at hnear
  rw [← hsignificand] at hbound
  have htext : (Datum.float x).json.toList = (numberLayout.text x).toList := by
    rw [Datum.json, String.toList_ofList, write, Json.float, if_pos hx]
  have hvalue : Value.ofText? (Datum.float x).json = some (.number n) :=
    Spelled.ofText?_eq (htext ▸ Spelled.number hnumeral)
  have hread : ofJson? (Datum.float x).json = some (.float (y.withSign x.isNegative)) := by
    rw [ofJson?, hvalue, Option.bind_some, toDatum?, NumberText.value?_eq hbound hfloat, hy,
      hnegative]
    rfl
  refine ⟨n, _, hvalue, hrounds, hread, hread, isNegative_withSign _ _, near_withSign _ hnear, ?_⟩
  intro hexact hten
  obtain ⟨z, hz, -, hrank⟩ := exact_scale? hexact hten hrounds (isFinite_iff.mp hx)
  obtain rfl := Option.some.inj (hy.symm.trans hz)
  apply ext_rank (isNegative_withSign _ _)
  rw [rank_withSign, hrank]

/-- Minus one tenth. -/
theorem ofJson?_json_tenth : (⟨0xBFB999999999999A⟩ : Double).isFinite = true ∧
    ofJson? (Datum.float ⟨0xBFB999999999999A⟩).json = some (.float ⟨0xBFB999999999999A⟩) := by
  have hfinite : (⟨0xBFB999999999999A⟩ : Double).isFinite = true := by decide
  obtain ⟨n, y, hvalue, -, hread, -, -, -, hexact⟩ :=
    ofJson?_json_float ⟨0xBFB999999999999A⟩ hfinite
  have htext : (Datum.float ⟨0xBFB999999999999A⟩).json = "-0.1" := by decide
  have hnumber : Value.ofText? "-0.1" = some (.number ⟨true, [0], [1], none⟩) := by rfl
  rw [htext, hnumber] at hvalue
  obtain rfl := Value.number.inj (Option.some.inj hvalue)
  rw [hexact (by decide) (by decide)] at hread
  exact ⟨hfinite, hread⟩

/-- The digits do not fit 53 bits: the significand is rounded first, and then the quotient
by 10¹⁵. -/
theorem ofJson?_json_neighbour : (⟨0x402314846C5E8EB4⟩ : Double).isFinite = true ∧
    ofJson? (Datum.float ⟨0x402314846C5E8EB4⟩).json = some (.float ⟨0x402314846C5E8EB3⟩) ∧
    (⟨0x402314846C5E8EB3⟩ : Double) ≠ ⟨0x402314846C5E8EB4⟩ := by
  have htext : (Datum.float ⟨0x402314846C5E8EB4⟩).json = "9.540072809736877" := by decide
  have hnumber : Value.ofText? "9.540072809736877" =
      some (.number ⟨false, [9], [5, 4, 0, 0, 7, 2, 8, 0, 9, 7, 3, 6, 8, 7, 7], none⟩) := by rfl
  have hvalue :
      NumberText.value? ⟨false, [9], [5, 4, 0, 0, 7, 2, 8, 0, 9, 7, 3, 6, 8, 7, 7], none⟩ =
      some (.float ⟨0x402314846C5E8EB3⟩) := by decide +kernel
  refine ⟨by decide, ?_, by decide⟩
  rw [htext, ofJson?, hnumber, Option.bind_some, toDatum?, hvalue]
  rfl

end TypedSyntax.Datum
