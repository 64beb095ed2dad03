import Mathlib.Algebra.Group.Nat.Defs
import TypedSyntax.Number.Layout

/-!
# Characters of decimal texts

A positional text and a scientific text hold the digits of one natural number, with a
point between them.
-/

namespace TypedSyntax

/-- The natural number and the count of the digits after the point of a positional
text. -/
def Decimal.pointed (d : Decimal) : Nat × Nat :=
  if 0 ≤ d.exponent then (d.digits * 10 ^ (d.exponent.toNat + 1), 1)
  else (d.digits, (-d.exponent).toNat)

namespace FloatLayout

theorem toList_pushn (s : String) (c : Char) (n : Nat) :
    (s.pushn c n).toList = s.toList ++ List.replicate n c := by
  rw [String.pushn_eq_repeat_push]
  induction n with
  | zero => simp [Nat.repeat]
  | succ n ih =>
      rw [Nat.repeat, String.toList_push, ih, List.append_assoc, List.replicate_succ']

theorem isDigit_of_mem_repr {n : Nat} {c : Char} (h : c ∈ n.repr.toList) : c.isDigit = true := by
  rw [Nat.toList_repr] at h
  exact Nat.isDigit_of_mem_toDigits (by decide) (by decide) h

theorem isDigit_of_mem_replicate {n : Nat} {c : Char} (h : c ∈ List.replicate n '0') :
    c.isDigit = true := by
  rw [List.eq_of_mem_replicate h]
  decide

theorem toList_repr_ne_nil (n : Nat) : n.repr.toList ≠ [] := by
  rw [Nat.toList_repr]
  exact Nat.toDigits_ne_nil

/-- The digits of a positive number do not start with a zero. -/
theorem head_repr_ne {n : Nat} (h : 0 < n) : n.repr.toList.head? ≠ some '0' := by
  rw [Nat.toList_repr]
  induction n using Nat.strongRecOn with
  | ind n ih =>
      by_cases hlt : n < 10
      · have hdigit : ∀ n < 10, 0 < n → n.digitChar ≠ '0' := by decide
        rw [Nat.toDigits_of_lt_base hlt]
        exact fun hhead => hdigit n hlt h (Option.some.inj hhead)
      · have hne : Nat.toDigits 10 (n / 10) ≠ [] := Nat.toDigits_ne_nil
        obtain ⟨c, cs, hcs⟩ := List.exists_cons_of_ne_nil hne
        have hhead := ih (n / 10) (by omega) (by omega)
        rw [hcs] at hhead
        rw [Nat.toDigits_of_base_le (by decide) (by omega), hcs]
        exact hhead

/-- Digits before and after a point that write a natural number. -/
structure Splits (n : Nat) (ws fs : List Char) : Prop where
  ne_nil : ws ≠ []
  isDigit : ∀ c ∈ ws ++ fs, c.isDigit = true
  value : Nat.ofDigitChars 10 (ws ++ fs) 0 = n
  head_ne : 0 < n → 1 < ws.length → ws.head? ≠ some '0'

theorem ofDigitChars_repr (n : Nat) : Nat.ofDigitChars 10 n.repr.toList 0 = n := by
  rw [Nat.toList_repr, Nat.ofDigitChars_ten_toDigits]

theorem splits_zeros (n k : Nat) :
    Splits (n * 10 ^ (k + 1)) (n.repr.toList ++ List.replicate k '0') ['0'] := by
  obtain ⟨c, cs, hcs⟩ := List.exists_cons_of_ne_nil (toList_repr_ne_nil n)
  refine ⟨?_, ?_, ?_, ?_⟩
  · rw [hcs]
    exact List.cons_ne_nil _ _
  · intro c hc
    rw [List.append_assoc, ← List.replicate_succ'] at hc
    exact (List.mem_append.mp hc).elim isDigit_of_mem_repr isDigit_of_mem_replicate
  · rw [List.append_assoc, ← List.replicate_succ', Nat.ofDigitChars_append, ofDigitChars_repr,
      Nat.ofDigitChars_replicate_zero, Nat.mul_comm]
  · intro hpos _
    have hhead := head_repr_ne (Nat.pos_of_mul_pos_right hpos)
    rw [hcs] at hhead ⊢
    exact hhead

/-- The padding leaves a digit before the point. -/
theorem splits_padded (n : Nat) {k : Nat} (hk : 0 < k) {cs : List Char}
    (hcs : cs = List.replicate (k + 1 - n.repr.toList.length) '0' ++ n.repr.toList) :
    Splits n (cs.take (cs.length - k)) (cs.drop (cs.length - k)) ∧
      (cs.drop (cs.length - k)).length = k := by
  have hlength : cs.length = max (k + 1) n.repr.toList.length := by
    rw [hcs, List.length_append, List.length_replicate]
    omega
  refine ⟨⟨?_, ?_, ?_, ?_⟩, ?_⟩
  · intro hnil
    have hzero := congrArg List.length hnil
    rw [List.length_take, List.length_nil] at hzero
    omega
  · intro c hc
    rw [List.take_append_drop, hcs] at hc
    exact (List.mem_append.mp hc).elim isDigit_of_mem_replicate isDigit_of_mem_repr
  · rw [List.take_append_drop, hcs, Nat.ofDigitChars_append, Nat.ofDigitChars_replicate_zero,
      Nat.mul_zero, ofDigitChars_repr]
  · -- More than one digit before the point are digits of the number.
    intro hpos hlong
    rw [List.length_take] at hlong
    have hnone : k + 1 - n.repr.toList.length = 0 := by omega
    rw [hnone, List.replicate_zero, List.nil_append] at hcs
    rw [hcs, List.head?_take, if_neg (by omega)]
    exact head_repr_ne hpos
  · rw [List.length_drop]
    omega

theorem toList_positional (d : Decimal) : ∃ ws fs, (positional d).toList = ws ++ '.' :: fs ∧
    Splits d.pointed.1 ws fs ∧ fs.length = d.pointed.2 := by
  unfold positional Decimal.pointed
  simp only [Nat.toString_eq_repr]
  split
  · refine ⟨_, _, ?_, splits_zeros d.digits d.exponent.toNat, rfl⟩
    simp [toList_pushn]
  · next hexponent =>
    have hplaces : 0 < (-d.exponent).toNat := by omega
    generalize (-d.exponent).toNat = k at hplaces ⊢
    generalize hpadded : "".pushn '0' (k + 1 - d.digits.repr.length) ++ d.digits.repr = padded
    have hcs : padded.toList =
        List.replicate (k + 1 - d.digits.repr.toList.length) '0' ++ d.digits.repr.toList := by
      rw [← hpadded, String.toList_append, toList_pushn, String.length_toList]
      rfl
    obtain ⟨hsplits, hlength⟩ := splits_padded d.digits hplaces hcs
    refine ⟨_, _, ?_, hsplits, hlength⟩
    simp [String.length_toList]

/-- A scientific text has one digit before the point, which stands only before further
digits. -/
theorem toList_scientific (plus : Bool) (d : Decimal) : ∃ w fs,
    (scientific plus d).toList = w :: ((if fs = [] then [] else '.' :: fs) ++
      'e' :: ((if plus && decide (0 ≤ d.leadingExponent) then ['+'] else []) ++
        (toString d.leadingExponent).toList)) ∧
    Splits d.digits [w] fs ∧ d.leadingExponent - fs.length = d.exponent := by
  obtain ⟨w, fs, hcs⟩ := List.exists_cons_of_ne_nil (toList_repr_ne_nil d.digits)
  have hdigits : ∀ c ∈ [w] ++ fs, c.isDigit = true := by
    intro c hc
    exact isDigit_of_mem_repr (n := d.digits) (by rwa [hcs])
  have hvalue : Nat.ofDigitChars 10 ([w] ++ fs) 0 = d.digits := by
    rw [List.singleton_append, ← hcs, ofDigitChars_repr]
  refine ⟨w, fs, ?_, ⟨List.cons_ne_nil _ _, hdigits, hvalue, fun _ hlong => ?_⟩, ?_⟩
  · unfold scientific
    generalize d.leadingExponent = leading
    simp only [Nat.toString_eq_repr, hcs]
    generalize (plus && decide (0 ≤ leading)) = sign
    by_cases hfs : fs = []
    · cases sign <;> simp [hfs]
    · cases sign <;> simp [hfs]
  · exact absurd hlong (Nat.lt_irrefl 1)
  · have hlength : (toString d.digits).length = fs.length + 1 := by
      rw [Nat.toString_eq_repr, ← String.length_toList, hcs, List.length_cons]
    rw [Decimal.leadingExponent, hlength]
    omega

end FloatLayout

end TypedSyntax
