import TypedSyntax.Json.Reader
import TypedSyntax.Json.Quoted
import TypedSyntax.Proofs.Json.Grammar
import TypedSyntax.Proofs.Number.Layout

/-!
# Written strings and integers

The characters of a text that are escaped are read back, and the digits of an
integer are a number of the same value.
-/

namespace TypedSyntax.Json

/-! ## Strings -/

/-- The part of a string that a character is read back as. Control characters
without a short escape are written as units. -/
def Piece.ofChar (c : Char) : Piece :=
  if c.toNat < 0x20 ∧ c ∉ ['\n', '\r', '\t', '\x08', '\x0c'] then .unit c.toNat else .char c

/-- An escaped character goes in front of the body of a string. -/
theorem Body.escape_append (c : Char) {ps : List Piece} {cs : List Char} (h : Body ps cs) :
    Body (Piece.ofChar c :: ps) (escape c ++ cs) := by
  unfold escape
  split
  case h_8 =>
    rename_i hquote hslash hn hr ht hb hf
    split
    · next hc =>
      have hpiece : Piece.ofChar c =
          .unit (Text.ofDigits 16 [0, 0, c.toNat / 16, c.toNat % 16]) := by
        have hcode : Text.ofDigits 16 [0, 0, c.toNat / 16, c.toNat % 16] = c.toNat := by
          simp only [Text.ofDigits, List.foldl_cons, List.foldl_nil]
          omega
        rw [Piece.ofChar, hcode, if_pos (by simp_all)]
      rw [hpiece]
      exact Body.unit rfl rfl (Text.hexValue?_lowerHex (by omega))
        (Text.hexValue?_lowerHex (by omega)) h
    · next hc =>
      rw [Piece.ofChar, if_neg fun hunit => hc hunit.1]
      exact Body.plain hquote hslash (by omega) h
  all_goals exact Body.escaped rfl h

theorem decode?_unit {code : Nat} (h : code < 0xd800) (ps : List Piece) :
    decode? (.unit code :: ps) = (decode? ps).map (Char.ofNat code :: ·) := by
  rcases ps with - | ⟨c | low, ps⟩ <;> simp [decode?, h]

theorem decode?_map_ofChar (cs : List Char) : decode? (cs.map Piece.ofChar) = some cs := by
  induction cs with
  | nil => rfl
  | cons c cs ih =>
      rw [List.map_cons, Piece.ofChar]
      split
      · next h => rw [decode?_unit (by omega), ih, Option.map_some, Char.ofNat_toNat]
      · rw [decode?, ih, Option.map_some]

/-- The text between the quotes is read back. -/
theorem body_flatMap_escape (cs : List Char) :
    Body (cs.map Piece.ofChar) (cs.flatMap escape) := by
  induction cs with
  | nil => exact Body.nil
  | cons c cs ih => exact ih.escape_append c

/-- A string is read back from its escaped characters. -/
theorem stringOf?_map_ofChar (s : String) :
    stringOf? (s.toList.map Piece.ofChar) = some s := by
  rw [stringOf?, decode?_map_ofChar, Option.map_some, String.ofList_toList]

/-- A quoted text is spelled as a string. -/
theorem spelled_quoted (s : String) :
    Spelled (.value (.string (s.toList.map Piece.ofChar))) (quoted s) :=
  Spelled.string (body_flatMap_escape s.toList)

/-! ## Integers -/

/-- The digits of a natural number. -/
def wholeDigits (n : Nat) : List Nat :=
  n.repr.toList.map Text.decimalValue

theorem digits_wholeDigits (n : Nat) : Digits (wholeDigits n) n.repr.toList := by
  rw [wholeDigits, Nat.toList_repr]
  exact Digits.mk Nat.toDigits_ne_nil
    fun _ hc => Nat.isDigit_of_mem_toDigits (by decide) (by decide) hc

theorem eq_zero_of_decimalValue {c : Char} (hc : c.isDigit = true) (h : Text.decimalValue c = 0) :
    c = '0' :=
  Text.eq_of_decimalValue_eq hc (by decide) h

/-- Only a single digit is a zero in front. -/
theorem no_leading_zero_of_head {cs : List Char} (hcs : ∀ c ∈ cs, c.isDigit = true)
    (h : 1 < cs.length → cs.head? ≠ some '0') :
    ¬ ((cs.map Text.decimalValue).head? = some 0 ∧ 1 < (cs.map Text.decimalValue).length) := by
  rintro ⟨hzero, hlength⟩
  rw [List.length_map] at hlength
  rw [List.head?_map] at hzero
  obtain ⟨c, hc, hvalue⟩ := Option.map_eq_some_iff.mp hzero
  apply h hlength
  rw [hc, eq_zero_of_decimalValue (hcs c (List.mem_of_head? hc)) hvalue]

/-- The digits of a number do not begin with a zero. -/
theorem no_leading_zero (n : Nat) :
    ¬ ((wholeDigits n).head? = some 0 ∧ 1 < (wholeDigits n).length) := by
  apply no_leading_zero_of_head fun _ => FloatLayout.isDigit_of_mem_repr
  intro hlength
  refine FloatLayout.head_repr_ne (Nat.pos_of_ne_zero ?_)
  rintro rfl
  exact absurd hlength (by decide)

theorem ofDigits_wholeDigits (n : Nat) : Text.ofDigits 10 (wholeDigits n) = n := by
  have h := Nat.ofDigitChars_toDigits (b := 10) (n := n) (by decide) (by decide)
  rw [Nat.ofDigitChars_eq_foldl] at h
  rw [Text.ofDigits, wholeDigits, Nat.toList_repr, List.foldl_map]
  exact h

theorem le_foldl_digits (ds : List Nat) (s : Nat) : s ≤ ds.foldl (fun n d => 10 * n + d) s := by
  induction ds generalizing s with
  | nil => exact Nat.le_refl _
  | cons d ds ih =>
      have hstep := ih (10 * s + d)
      rw [List.foldl_cons]
      omega

/-- All digits are added to a significand that stays in range. -/
theorem addWhole_eq {ds : List Nat} {s : Nat}
    (h : ds.foldl (fun n d => 10 * n + d) s < significandBound) :
    addWhole s ds = (ds.foldl (fun n d => 10 * n + d) s, 0) := by
  induction ds generalizing s with
  | nil => rfl
  | cons d ds ih =>
      rw [List.foldl_cons] at h ⊢
      rw [addWhole, if_pos (Nat.lt_of_le_of_lt (le_foldl_digits ds _) h), ih h]

/-- All digits of a fraction are kept below the bound. -/
theorem addFraction_eq {ds : List Nat} {s : Nat}
    (h : ds.foldl (fun n d => 10 * n + d) s < significandBound) :
    addFraction s ds = (ds.foldl (fun n d => 10 * n + d) s, ds.length) := by
  induction ds generalizing s with
  | nil => rfl
  | cons d ds ih =>
      rw [List.foldl_cons] at h ⊢
      rw [addFraction, if_pos (Nat.lt_of_le_of_lt (le_foldl_digits ds _) h), ih h]
      rfl

/-- The number that is read from an integer. -/
def NumberText.ofInt (i : Int) : NumberText :=
  ⟨decide (i < 0), wholeDigits i.natAbs, [], none⟩

/-- The text of an integer is spelled as its number. -/
theorem numeral_toString (i : Int) : Numeral (NumberText.ofInt i) (toString i).toList := by
  have h : Numeral (NumberText.ofInt i) _ :=
    Numeral.mk (digits_wholeDigits i.natAbs) (no_leading_zero _) Fraction.absent Exponent.absent
  rw [List.append_nil, List.append_nil] at h
  rw [Int.toString_eq_repr, Int.repr_eq_if]
  split
  · next hi =>
    have habs : i.natAbs = i.toNat := by omega
    have hsign : decide (i < 0) = false := decide_eq_false (by omega)
    rwa [hsign, habs] at h
  · next hi =>
    have habs : i.natAbs = (-i).toNat := by omega
    have hsign : decide (i < 0) = true := decide_eq_true (by omega)
    rw [String.toList_append]
    rwa [hsign, habs] at h

/-- An integer that fits a word is read back. -/
theorem value?_ofInt {i : Int} (h : Datum.fitsWord i = true) :
    (NumberText.ofInt i).value? = some (.int i) := by
  simp only [Datum.fitsWord, Bool.and_eq_true, decide_eq_true_eq] at h
  have hsum := ofDigits_wholeDigits i.natAbs
  rw [Text.ofDigits] at hsum
  have hbound : i.natAbs < 0x10000000000000000 := by omega
  have hwhole : addWhole 0 (wholeDigits i.natAbs) = (i.natAbs, 0) := by
    rw [addWhole_eq (hsum.symm ▸ hbound), hsum]
  by_cases hi : i < 0
  · have hrange : ¬ (i.natAbs = 0 ∨ 0x8000000000000000 < i.natAbs) := by omega
    have hneg : -(i.natAbs : Int) = i := by omega
    simp only [NumberText.value?, NumberText.ofInt, hwhole, hi, decide_true, and_self, if_true,
      if_neg hrange, hneg]
  · have hpos : (i.natAbs : Int) = i := by omega
    simp [NumberText.value?, NumberText.ofInt, hwhole, hi, hpos]

end TypedSyntax.Json
