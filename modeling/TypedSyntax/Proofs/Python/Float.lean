import TypedSyntax.Proofs.Json.Decimal
import TypedSyntax.Python.Text

/-!
# Reading back doubles

A finite double is written as a number with a fraction or an exponent, and the double
nearest to that number is the one written.
-/

namespace TypedSyntax.Python

open Double FloatLayout Json

/-- A finite double is written as its shortest decimal. -/
theorem floatLiteral_of_isFinite {x : Double} (hx : x.isFinite = true) :
    floatLiteral x = numberLayout.text x := by
  rw [floatLiteral, isNaN_eq_false_of_isFinite hx, isInfinite, exponentField_beq_of_isFinite hx,
    Bool.false_and, if_neg Bool.false_ne_true, if_neg Bool.false_ne_true]

/-- The text of a finite double is one number, with a fraction or an exponent. The double
is the one with its sign, also that of zero, that is nearest to it, so that no other
finite double has the text. -/
theorem floatLiteral_nearest (x : Double) (hx : x.isFinite = true) :
    (∃ n, (∀ m, Numeral m (floatLiteral x).toList ↔ m = n) ∧
      (n.fraction ≠ [] ∨ n.exponent? ≠ none) ∧
      ∀ y : Double, y.isNegative = n.negative ∧ Nearest n.magnitude y ↔ y = x) ∧
    ∀ y : Double, y.isFinite = true → floatLiteral y = floatLiteral x → y = x := by
  obtain ⟨n, hnumeral, hform, hnearest⟩ := exists_numeral_nearest numberLayout hx
  rw [← floatLiteral_of_isFinite hx] at hnumeral
  have hunique : ∀ m, Numeral m (floatLiteral x).toList ↔ m = n := fun m =>
    ⟨fun hm => hm.unique hnumeral, fun hm => hm ▸ hnumeral⟩
  refine ⟨⟨n, hunique, hform, hnearest⟩, fun y hy htext => ?_⟩
  -- Both doubles are the nearest one to the number that the text writes.
  obtain ⟨m, hnumeral', -, hnearest'⟩ := exists_numeral_nearest numberLayout hy
  rw [← floatLiteral_of_isFinite hy, htext] at hnumeral'
  obtain rfl := (hunique m).mp hnumeral'
  exact (hnearest y).mp ((hnearest' y).mpr rfl)

/-- The double nearest to 10²³ is a little less. -/
theorem floatLiteral_nearest_power : (⟨0x44B52D02C7E14AF6⟩ : Double).isFinite = true ∧
    floatLiteral ⟨0x44B52D02C7E14AF6⟩ = "1e23" ∧
    (∀ y : Double, y.isNegative = false ∧ Nearest (10 ^ 23) y ↔ y = ⟨0x44B52D02C7E14AF6⟩) ∧
    ∀ y : Double, y.isFinite = true → floatLiteral y = "1e23" → y = ⟨0x44B52D02C7E14AF6⟩ := by
  have hfinite : (⟨0x44B52D02C7E14AF6⟩ : Double).isFinite = true := by decide
  have htext : floatLiteral ⟨0x44B52D02C7E14AF6⟩ = "1e23" := by decide
  obtain ⟨⟨n, hunique, -, hnearest⟩, hinjective⟩ := floatLiteral_nearest _ hfinite
  have hone : Digits [1] ['1'] := Digits.mk (List.cons_ne_nil '1' []) (List.all_eq_true.mp rfl)
  have hpower : Digits [2, 3] ['2', '3'] :=
    Digits.mk (List.cons_ne_nil '2' ['3']) (List.all_eq_true.mp rfl)
  have hnumeral : Numeral ⟨false, [1], [], some 23⟩ "1e23".toList :=
    Numeral.mk hone (by decide) Fraction.absent (Exponent.unsigned (Or.inl rfl) hpower)
  obtain rfl := (hunique _).mp (htext ▸ hnumeral)
  have hmagnitude : NumberText.magnitude ⟨false, [1], [], some 23⟩ = 10 ^ 23 := by
    norm_num [NumberText.magnitude, NumberText.significand, NumberText.power, Text.ofDigits]
  rw [hmagnitude] at hnearest
  exact ⟨hfinite, htext, hnearest, htext ▸ hinjective⟩

/-- The sign of zero is written. -/
example : floatLiteral ⟨0x8000000000000000⟩ = "-0.0" := by
  decide

end TypedSyntax.Python
