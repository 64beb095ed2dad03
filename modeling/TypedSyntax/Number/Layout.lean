import TypedSyntax.Number.Shortest

/-!
# Decimal texts of doubles

A layout says which numbers are written positionally and how an exponent
looks. The digits are the shortest ones that read back.
-/

namespace TypedSyntax

/-- How the decimal text of a finite double looks. Numbers whose leading
digit has an exponent from `least?` to `greatest` are written positionally,
with a digit on both sides of the point; the others with an exponent. -/
structure FloatLayout where
  least? : Option Int
  greatest : Int
  plusSign : Bool
  tie : TieRule
deriving Repr

namespace FloatLayout

/-- The decimal with a digit on both sides of the point. -/
def positional (d : Decimal) : String :=
  let digits := toString d.digits
  if 0 ≤ d.exponent then
    digits ++ "".pushn '0' d.exponent.toNat ++ ".0"
  else
    let places := (-d.exponent).toNat
    let padded := "".pushn '0' (places + 1 - digits.length) ++ digits
    let split := padded.length - places
    String.ofList (padded.toList.take split) ++ "." ++
      String.ofList (padded.toList.drop split)

/-- The decimal with one digit before the point and an exponent. -/
def scientific (plusSign : Bool) (d : Decimal) : String :=
  let digits := (toString d.digits).toList
  let leading := d.leadingExponent
  let sign := if plusSign && decide (0 ≤ leading) then "+" else ""
  let fraction := if digits.length ≤ 1 then "" else "." ++ String.ofList (digits.drop 1)
  String.ofList (digits.take 1) ++ fraction ++ "e" ++ sign ++ toString leading

/-- The text of a finite double. -/
def text (layout : FloatLayout) (x : Double) : String :=
  let d := x.shortest layout.tie
  let leading := d.leadingExponent
  let small := layout.least?.any (leading < ·)
  let sign := if x.isNegative then "-" else ""
  if x.isZero || !small && decide (leading ≤ layout.greatest) then
    sign ++ positional d
  else
    sign ++ scientific layout.plusSign d

end FloatLayout

end TypedSyntax
