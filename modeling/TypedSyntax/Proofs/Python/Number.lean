import TypedSyntax.Proofs.Number.Layout
import TypedSyntax.Proofs.Python.Lexer

/-!
# Texts of numbers

Every number is written as an optional minus sign before one number token.
-/

namespace TypedSyntax.Python

open FloatLayout

/-- The digits of a number are a number without a sign. -/
theorem unsigned_repr (n : Nat) : Unsigned n.repr.toList := by
  have h := Unsigned.mk (toList_repr_ne_nil n) (fun _ => isDigit_of_mem_repr) (Or.inl rfl)
    (Or.inl rfl)
  simpa using h

/-- A positional decimal is one number. -/
theorem unsigned_positional (d : Decimal) : Unsigned (positional d).toList := by
  obtain ⟨ws, fs, htext, hsplits, -⟩ := toList_positional d
  obtain ⟨hwhole, hfraction⟩ := List.forall_mem_append.mp hsplits.isDigit
  have h := Unsigned.mk hsplits.ne_nil hwhole (Or.inr ⟨fs, rfl, hfraction⟩) (Or.inl rfl)
  rwa [List.append_nil, ← htext] at h

/-- A decimal with a positive exponent is one number. -/
theorem unsigned_scientific {d : Decimal} (h : 0 ≤ d.leadingExponent) :
    Unsigned (scientific false d).toList := by
  have hexponent : toString d.leadingExponent = d.leadingExponent.toNat.repr := by
    rw [Int.toString_eq_repr, Int.repr_eq_if, if_pos h]
  obtain ⟨c, cs, hcs⟩ := List.exists_cons_of_ne_nil (toList_repr_ne_nil d.leadingExponent.toNat)
  have hpower : ∀ x ∈ c :: cs, x.isDigit = true := by
    intro x hx
    exact isDigit_of_mem_repr (hcs ▸ hx)
  obtain ⟨w, fs, htext, hsplits, -⟩ := toList_scientific false d
  obtain ⟨hwhole, hfraction⟩ := List.forall_mem_append.mp hsplits.isDigit
  have hpoint : (if fs = [] then [] else '.' :: fs) = [] ∨
      ∃ ds, (if fs = [] then [] else '.' :: fs) = '.' :: ds ∧ ∀ c ∈ ds, c.isDigit = true := by
    by_cases hfs : fs = []
    · exact Or.inl (if_pos hfs)
    · exact Or.inr ⟨fs, if_neg hfs, hfraction⟩
  have hmk := Unsigned.mk hsplits.ne_nil hwhole hpoint (Or.inr ⟨c, cs, rfl, hpower⟩)
  rw [htext, hexponent, hcs]
  simpa using hmk

/-- The text of a finite number without its sign. -/
def magnitude (x : Double) : String :=
  let d := x.shortest numberLayout.tie
  if x.isZero || decide (d.leadingExponent ≤ numberLayout.greatest) then FloatLayout.positional d
  else FloatLayout.scientific false d

theorem text_numberLayout (x : Double) :
    numberLayout.text x = (if x.isNegative then "-" else "") ++ magnitude x := by
  have hleast : numberLayout.least? = none := rfl
  have hplus : numberLayout.plusSign = false := rfl
  unfold FloatLayout.text magnitude
  simp only [hleast, hplus, Option.any_none, Bool.not_false, Bool.true_and]
  generalize x.shortest numberLayout.tie = d
  by_cases hpositional : (x.isZero || decide (d.leadingExponent ≤ numberLayout.greatest)) = true
  · rw [if_pos hpositional, if_pos hpositional]
  · rw [if_neg hpositional, if_neg hpositional]

/-- The text of a finite double without its sign is a number. -/
theorem unsigned_magnitude (x : Double) : Unsigned (magnitude x).toList := by
  unfold magnitude
  dsimp only
  split
  · exact unsigned_positional _
  · next hlarge =>
    have hgreatest : numberLayout.greatest = 15 := rfl
    rw [Bool.or_eq_true, not_or, decide_eq_true_eq, hgreatest] at hlarge
    exact unsigned_scientific (by omega)

end TypedSyntax.Python
