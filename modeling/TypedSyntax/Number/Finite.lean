import TypedSyntax.Number.Double
import TypedSyntax.Text.Digit

/-!
# Finite decimals

Whether a decimal is small enough for a finite double. Magnitudes far from the
greatest double are decided by the number of their digits.
-/

namespace TypedSyntax.Double

/-- Whether `digits * 10 ^ exponent` rounds to a finite double. -/
def isFiniteDecimal (digits : List Char) (exponent : Int) : Bool :=
  let significant := digits.dropWhile (· == '0')
  let magnitude := (significant.length : Int) + exponent
  if significant.isEmpty ∨ magnitude < 300 then true
  else if 310 < magnitude then false
  else
    let n := Text.ofDecimal significant
    decide (nearestBits (n * Nat.pow 10 exponent.toNat) (Nat.pow 10 (-exponent).toNat) <
      infinityBits)

end TypedSyntax.Double
