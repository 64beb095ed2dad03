import TypedSyntax.Json.Value
import TypedSyntax.Number.Double

/-!
# Values of JSON numbers

A number without fraction and exponent is an integer if 64 bits hold it.
Every other number is a double, computed from the digits that fit an unsigned
64-bit significand by one multiplication with or by divisions by powers of
ten; each of these operations rounds.
-/

namespace TypedSyntax.Json

inductive Number where
  | int (value : Int)
  | float (value : Double)
deriving DecidableEq, Repr

/-- Significands are below 2⁶⁴. -/
abbrev significandBound : Nat := 0x10000000000000000

/-- Adds whole digits to a significand while it fits. The second component
counts the digits that are left out. -/
def addWhole : (significand : Nat) → List Nat → Nat × Nat
  | s, [] => (s, 0)
  | s, d :: ds =>
    if 10 * s + d < significandBound then addWhole (10 * s + d) ds else (s, ds.length + 1)

/-- Adds digits of the fraction while the significand fits. The second
component counts the digits that are used. -/
def addFraction : (significand : Nat) → List Nat → Nat × Nat
  | s, [] => (s, 0)
  | s, d :: ds =>
    if 10 * s + d < significandBound then
      let (t, used) := addFraction (10 * s + d) ds
      (t, used + 1)
    else
      (s, 0)

/-- Divides by a power of ten in steps of at most 10³⁰⁸. Three steps bring
every significand of 64 bits down to zero. -/
def scaleDown : (steps : Nat) → Double → Nat → Double
  | 0, _, _ => .zero
  | steps + 1, x, k =>
    if k ≤ 308 then x.divMagnitude (.powerOfTen k)
    else if x.isZero then x
    else scaleDown steps (x.divMagnitude (.powerOfTen 308)) (k - 308)

/-- A magnitude times a power of ten, unless it leaves the finite range. -/
def scale? (x : Double) (exponent : Int) : Option Double :=
  if exponent < 0 then
    some (scaleDown 3 x (-exponent).toNat)
  else if exponent ≤ 308 then
    let y := x.mulMagnitude (.powerOfTen exponent.toNat)
    if y.isFinite then some y else none
  else if x.isZero then some x
  else none

/-- The value of a number. Only a number beyond the finite doubles has none. -/
def NumberText.value? (n : NumberText) : Option Number :=
  let (whole, dropped) := addWhole 0 n.whole
  if n.fraction = [] ∧ n.exponent? = none ∧ dropped = 0 then
    if n.negative then
      if whole = 0 ∨ 0x8000000000000000 < whole then
        some (.float ((Double.ofRatio false whole 1).withSign true))
      else
        some (.int (-(whole : Int)))
    else
      some (.int whole)
  else
    let (significand, used) := addFraction whole n.fraction
    let exponent := (dropped : Int) - used + n.exponent?.getD 0
    (scale? (Double.ofRatio false significand 1) exponent).map fun x =>
      .float (x.withSign n.negative)

end TypedSyntax.Json
