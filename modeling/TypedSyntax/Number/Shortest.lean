import TypedSyntax.Number.Double

/-!
# Shortest decimal digits

The fewest decimal digits that read back as a given double, and of those the
nearest ones. `shortest` tries 1, 2, … 17 digits: on each decimal grid only
the two neighbours of the value can be nearest, and the first grid on which a
neighbour rounds back wins.
-/

namespace TypedSyntax

/-- Where the digits go when two candidates are equally near. -/
inductive TieRule where
  | toEven
  | upwards
deriving DecidableEq, Repr

/-- The magnitude `digits * 10 ^ exponent`. -/
structure Decimal where
  digits : Nat
  exponent : Int
deriving DecidableEq, Repr

namespace Decimal

/-- The exponent of the leading digit. -/
def leadingExponent (d : Decimal) : Int :=
  d.exponent + ((toString d.digits).length : Int) - 1

/-- Drops zeros at the end, at most `fuel` of them. -/
def trim : (fuel : Nat) → Decimal → Decimal
  | 0, d => d
  | fuel + 1, d =>
    if d.digits ≠ 0 ∧ d.digits % 10 = 0 then
      trim fuel ⟨d.digits / 10, d.exponent + 1⟩
    else
      d

end Decimal

namespace Double

/-- The greatest `k ≤ start` with `10 ^ k ≤ n / d`, found downwards. -/
def floorLog (n d : Nat) : (fuel : Nat) → (start : Int) → Int
  | 0, k => k
  | fuel + 1, k =>
    let reached :=
      if 0 ≤ k then d * Nat.pow 10 k.toNat ≤ n else d ≤ n * Nat.pow 10 (-k).toNat
    if reached then k else floorLog n d fuel (k - 1)

/-- The decimal exponent of the leading digit of a positive quotient. The
start of the search overestimates it by at most three. -/
def leadingExponent (n d : Nat) : Int :=
  let binary : Int := n.log2 - d.log2 + 1
  floorLog n d 8 (binary * 1233 / 4096 + 1)

/-- The ends of the interval of reals that round to a finite positive
magnitude, as numerators over four times the magnitude's denominator. Below a
power of two the gap is half as wide. -/
def interval (x : Double) : Nat × Nat :=
  let step := x.ratio.1 / x.significand
  let below := if x.fractionField = 0 ∧ 1 < x.exponentField then step else 2 * step
  (4 * x.ratio.1 - below, 4 * x.ratio.1 + 2 * step)

/-- Whether the decimal lies in the interval that rounds to `x`. The ends
belong to it when the significand is even. -/
def readsBack (x : Double) (c : Decimal) : Bool :=
  let d := 4 * x.ratio.2
  let up := Nat.pow 10 c.exponent.toNat
  let down := Nat.pow 10 (-c.exponent).toNat
  let value := c.digits * up * d
  let low := x.interval.1 * down
  let high := x.interval.2 * down
  if x.significand % 2 = 0 then
    decide (low ≤ value) && decide (value ≤ high)
  else
    decide (low < value) && decide (value < high)

/-- The better of the two neighbours of `x` on the grid of multiples of
`10 ^ exponent`, if one of them reads back. -/
def onGrid? (tie : TieRule) (x : Double) (exponent : Int) : Option Decimal :=
  let n := x.ratio.1 * Nat.pow 10 (-exponent).toNat
  let d := x.ratio.2 * Nat.pow 10 exponent.toNat
  let low : Decimal := ⟨n / d, exponent⟩
  let high : Decimal := ⟨n / d + 1, exponent⟩
  let lowOk := low.digits != 0 && x.readsBack low
  let highOk := x.readsBack high
  if lowOk && highOk then
    let twice := 2 * (n % d)
    if twice < d then some low
    else if twice > d then some high
    else
      match tie with
      | .toEven => some (if low.digits % 2 = 0 then low else high)
      | .upwards => some high
  else if lowOk then some low
  else if highOk then some high
  else none

/-- Tries grids of `count`, `count + 1`, … digits. -/
def firstGrid (tie : TieRule) (x : Double) (leading : Int) :
    (fuel count : Nat) → Decimal
  | 0, _ => ⟨0, 0⟩
  | fuel + 1, count =>
    match x.onGrid? tie (leading - count + 1) with
    | some c => c
    | none => firstGrid tie x leading fuel (count + 1)

/-- The fewest digits that read back as the magnitude of a finite double, the
nearest of those, without zeros at the end. -/
def shortest (tie : TieRule) (x : Double) : Decimal :=
  if x.isZero then
    ⟨0, 0⟩
  else
    let leading := leadingExponent x.ratio.1 x.ratio.2
    (x.firstGrid tie leading 17 1).trim 17

end Double

end TypedSyntax
