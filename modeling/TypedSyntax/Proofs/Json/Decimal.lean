import TypedSyntax.Proofs.Json.Writing
import TypedSyntax.Proofs.Number.Layout
import TypedSyntax.Proofs.Number.Nearest

/-!
# Decimals as numbers

The text of a double, in any layout, is a number with a fraction or an exponent. Its
value is that of the shortest decimal.
-/

namespace TypedSyntax.Json

open Double FloatLayout

variable {s : Nat} {e : Int} {negative : Bool} {ws fs es : List Char} {exponent : Option Int}

namespace NumberText

/-- All digits of a number as one natural number. -/
def significand (n : NumberText) : Nat :=
  Text.ofDigits 10 (n.whole ++ n.fraction)

/-- The power of ten that scales the significand. -/
def power (n : NumberText) : Int :=
  n.exponent?.getD 0 - n.fraction.length

/-- The magnitude of a number, without rounding. -/
def magnitude (n : NumberText) : ℚ :=
  n.significand * (10 : ℚ) ^ n.power

end NumberText

/-- A number with a fraction or an exponent, with its sign, its significand and its power
of ten. -/
structure Denotes (n : NumberText) (negative : Bool) (s : Nat) (e : Int) : Prop where
  float : n.fraction ≠ [] ∨ n.exponent? ≠ none
  negative : n.negative = negative
  significand : n.significand = s
  power : n.power = e

theorem Denotes.magnitude {n : NumberText} (h : Denotes n negative s e) :
    n.magnitude = s * (10 : ℚ) ^ e := by
  rw [NumberText.magnitude, h.significand, h.power]

theorem exists_numeral_of_splits (negative : Bool) (h : Splits s ws fs)
    (hlead : 0 < s ∨ ws.length = 1) (hes : Exponent exponent es)
    (hform : fs ≠ [] ∨ exponent ≠ none) :
    ∃ n, Denotes n negative s (exponent.getD 0 - fs.length) ∧
      Numeral n ((if negative then ['-'] else []) ++
        (ws ++ ((if fs = [] then [] else '.' :: fs) ++ es))) := by
  obtain ⟨hwhole, hfraction⟩ := List.forall_mem_append.mp h.isDigit
  refine ⟨⟨negative, ws.map Text.decimalValue, fs.map Text.decimalValue, exponent⟩,
    ⟨?_, rfl, ?_, ?_⟩, Numeral.mk (Digits.mk h.ne_nil hwhole) ?_ ?_ hes⟩
  · exact hform.imp_left fun hne hnil => hne (List.map_eq_nil_iff.mp hnil)
  · rw [NumberText.significand, ← List.map_append, Text.ofDigits, List.foldl_map]
    exact h.value
  · rw [NumberText.power, List.length_map]
  · apply no_leading_zero_of_head hwhole
    intro hlength
    exact h.head_ne (hlead.resolve_right hlength.ne') hlength
  · by_cases hfs : fs = []
    · rw [if_pos hfs, hfs]
      exact Fraction.absent
    · rw [if_neg hfs]
      exact Fraction.present (Digits.mk hfs hfraction)

/-- An exponent is written with or without a plus sign. -/
theorem exponent_toString (plus : Bool) (i : Int) :
    Exponent (some i) ('e' :: ((if plus && decide (0 ≤ i) then ['+'] else []) ++
      (toString i).toList)) := by
  rw [Int.toString_eq_repr, Int.repr_eq_if]
  by_cases hi : 0 ≤ i
  · have hdigits : (Text.ofDigits 10 _ : Int) = i :=
      (congrArg Nat.cast (ofDigits_wholeDigits i.toNat)).trans (Int.toNat_of_nonneg hi)
    have hunsigned : Exponent _ ('e' :: _) :=
      Exponent.unsigned (Or.inl rfl) (digits_wholeDigits i.toNat)
    have hplus : Exponent _ ('e' :: '+' :: _) :=
      Exponent.plus (Or.inl rfl) (digits_wholeDigits i.toNat)
    rw [hdigits] at hunsigned hplus
    rw [decide_eq_true hi, Bool.and_true, if_pos hi]
    cases plus with
    | false => exact hunsigned
    | true => exact hplus
  · have h : Exponent _ ('e' :: '-' :: _) :=
      Exponent.minus (Or.inl rfl) (digits_wholeDigits (-i).toNat)
    rw [ofDigits_wholeDigits, Int.toNat_of_nonneg (by omega), Int.neg_neg] at h
    rw [decide_eq_false hi, Bool.and_false, if_neg Bool.false_ne_true, if_neg hi,
      String.toList_append]
    exact h

theorem pointed_pos {d : Decimal} (h : 0 < d.digits) : 0 < d.pointed.1 ∧ 0 < d.pointed.2 := by
  unfold Decimal.pointed
  split
  · exact ⟨Nat.mul_pos h (Nat.pow_pos (by decide)), Nat.one_pos⟩
  · exact ⟨h, by dsimp only; omega⟩

theorem exists_numeral_positional {d : Decimal} (hpos : 0 < d.digits) :
    ∃ n, Denotes n negative d.pointed.1 (-(d.pointed.2 : Int)) ∧
      Numeral n ((if negative then ['-'] else []) ++ (positional d).toList) := by
  obtain ⟨ws, fs, htext, hsplits, hlength⟩ := toList_positional d
  obtain ⟨hvalue, hplaces⟩ := pointed_pos hpos
  have hfs : fs ≠ [] := List.ne_nil_of_length_pos (hlength ▸ hplaces)
  have h := exists_numeral_of_splits negative hsplits (Or.inl hvalue) Exponent.absent
    (Or.inl hfs)
  rw [hlength, Option.getD_none, zero_sub, if_neg hfs, List.append_nil] at h
  rw [htext]
  exact h

theorem exists_numeral_zero (negative : Bool) :
    ∃ n, Denotes n negative 0 (-1) ∧
      Numeral n ((if negative then ['-'] else []) ++ ['0', '.', '0']) := by
  have hsplits : Splits 0 ['0'] ['0'] := splits_zeros 0 0
  exact exists_numeral_of_splits negative hsplits (Or.inr rfl) Exponent.absent (Or.inl (by decide))

theorem exists_numeral_scientific (plus : Bool) {d : Decimal} (hpos : 0 < d.digits) :
    ∃ n, Denotes n negative d.digits d.exponent ∧
      Numeral n ((if negative then ['-'] else []) ++ (scientific plus d).toList) := by
  obtain ⟨w, fs, htext, hsplits, hlength⟩ := toList_scientific plus d
  have h := exists_numeral_of_splits negative hsplits (Or.inl hpos)
    (exponent_toString plus d.leadingExponent) (Or.inr (Option.some_ne_none _))
  rw [Option.getD_some, hlength] at h
  rw [htext]
  exact h

end TypedSyntax.Json

namespace TypedSyntax.FloatLayout

open Double Json

theorem value_pointed (d : Decimal) :
    d.pointed.1 * (10 : ℚ) ^ (-(d.pointed.2 : Int)) = d.value := by
  unfold Decimal.pointed Decimal.value
  split
  · next hexponent =>
    obtain ⟨k, hk⟩ := Int.eq_ofNat_of_zero_le hexponent
    rw [hk, Int.toNat_natCast, zpow_natCast]
    push_cast
    rw [zpow_neg_one, pow_succ]
    field_simp
  · next hexponent =>
    dsimp only
    rw [Int.toNat_of_nonneg (by omega), neg_neg]

/-- The significand and the power of ten that the text of a double shows. A positional
text ends in a fraction, if only of zero. -/
def shown (layout : FloatLayout) (x : Double) : Nat × Int :=
  let d := x.shortest layout.tie
  if x.isZero || !(layout.least?.any (d.leadingExponent < ·)) &&
      decide (d.leadingExponent ≤ layout.greatest) then
    (d.pointed.1, -(d.pointed.2 : Int))
  else
    (d.digits, d.exponent)

theorem value_shown (layout : FloatLayout) (x : Double) :
    (layout.shown x).1 * (10 : ℚ) ^ (layout.shown x).2 = (x.shortest layout.tie).value := by
  unfold shown
  dsimp only
  split
  · exact value_pointed _
  · rfl

theorem exists_numeral_layout (layout : FloatLayout) (x : Double) :
    ∃ n, Denotes n x.isNegative (layout.shown x).1 (layout.shown x).2 ∧
      Numeral n (layout.text x).toList := by
  have hsign : ∀ text : String, ((if x.isNegative then "-" else "") ++ text).toList =
      (if x.isNegative then ['-'] else []) ++ text.toList := by
    intro text
    cases x.isNegative <;> simp
  unfold FloatLayout.text shown
  rcases Nat.eq_zero_or_pos x.rank with hzero | hpos
  · have htext : (positional ⟨0, 0⟩).toList = ['0', '.', '0'] := by decide
    rw [shortest_of_rank_eq_zero layout.tie hzero, isZero_iff.mpr hzero]
    dsimp only
    rw [Bool.true_or, if_pos rfl, if_pos rfl, hsign, htext]
    exact exists_numeral_zero x.isNegative
  · have hdigits := (writes_shortest layout.tie hpos).pos
    generalize x.shortest layout.tie = d at *
    dsimp only
    split
    · rw [hsign]
      exact exists_numeral_positional hdigits
    · rw [hsign]
      exact exists_numeral_scientific layout.plusSign hdigits

/-- In every layout a finite double is the double of its sign that is nearest to the number
of its text. -/
theorem exists_numeral_nearest (layout : FloatLayout) {x : Double} (hx : x.isFinite = true) :
    ∃ n, Numeral n (layout.text x).toList ∧ (n.fraction ≠ [] ∨ n.exponent? ≠ none) ∧
      ∀ y : Double, y.isNegative = n.negative ∧ Nearest n.magnitude y ↔ y = x := by
  obtain ⟨n, hdenotes, hnumeral⟩ := exists_numeral_layout layout x
  refine ⟨n, hnumeral, hdenotes.float, fun y => ?_⟩
  rw [hdenotes.magnitude, value_shown, hdenotes.negative,
    nearest_iff hx (rounds_shortest layout.tie x)]
  exact ⟨fun h => ext_rank h.1 h.2, fun h => h ▸ ⟨rfl, rfl⟩⟩

end TypedSyntax.FloatLayout
