/-!
# Double-precision numbers

A double is its 64 bits, so that NaN payloads and the sign of zero are part
of the value. A finite double is `significand * 2 ^ power` with a sign;
`ofRatio` rounds a quotient of naturals to the nearest double, ties to even.
-/

namespace TypedSyntax

/-- A binary64 number, given by its bits. -/
structure Double where
  bits : BitVec 64
deriving DecidableEq, Repr

namespace Double

def zero : Double := ⟨0⟩

instance : Inhabited Double := ⟨zero⟩

/-- The weight of the sign bit, 2⁶³. -/
abbrev signWeight : Nat := 0x8000000000000000

/-- The weight of the exponent field, 2⁵². -/
abbrev exponentWeight : Nat := 0x10000000000000

/-- The bits of positive infinity. -/
abbrev infinityBits : Nat := 2047 * exponentWeight

def isNegative (x : Double) : Bool :=
  decide (signWeight ≤ x.bits.toNat)

def exponentField (x : Double) : Nat :=
  x.bits.toNat / exponentWeight % 2048

def fractionField (x : Double) : Nat :=
  x.bits.toNat % exponentWeight

def isFinite (x : Double) : Bool :=
  x.exponentField != 2047

def isNaN (x : Double) : Bool :=
  x.exponentField == 2047 && x.fractionField != 0

def isInfinite (x : Double) : Bool :=
  x.exponentField == 2047 && x.fractionField == 0

def isZero (x : Double) : Bool :=
  x.exponentField == 0 && x.fractionField == 0

/-- The integer part of the representation of a finite magnitude. -/
def significand (x : Double) : Nat :=
  if x.exponentField = 0 then x.fractionField else exponentWeight + x.fractionField

/-- The power of two that scales the significand, raised by 1074. It is never
negative, since the least power is -1074. -/
def biasedPower (x : Double) : Nat :=
  x.exponentField - 1

/-- A finite magnitude as a quotient of naturals. -/
def ratio (x : Double) : Nat × Nat :=
  if 1074 ≤ x.biasedPower then
    (x.significand * Nat.pow 2 (x.biasedPower - 1074), 1)
  else
    (x.significand, Nat.pow 2 (1074 - x.biasedPower))

/-- The quotient rounded to the nearest integer, a half going to the even
neighbour. -/
def roundHalfEven (n d : Nat) : Nat :=
  let q := n / d
  let r := n % d
  if 2 * r < d then q
  else if 2 * r > d then q + 1
  else if q % 2 = 0 then q
  else q + 1

/-- The bits of the double nearest to `n / d`, at most those of infinity.

With a grid of spacing `2 ^ (p - 1074)` the number rounds to `m` grid steps;
`p * 2 ^ 52 + m` are then its bits, also when `m` carries into the next
binade. -/
def nearestBits (n d : Nat) : Nat :=
  if n = 0 then 0
  else
    let estimate := n.log2 + 1074 - d.log2 - 53
    let fits := n * Nat.pow 2 1074 < 2 * exponentWeight * (d * Nat.pow 2 estimate)
    let p := if fits then estimate else estimate + 1
    let m := roundHalfEven (n * Nat.pow 2 1074) (d * Nat.pow 2 p)
    min (p * exponentWeight + m) infinityBits

/-- The double nearest to `n / d` with the given sign. -/
def ofRatio (negative : Bool) (n d : Nat) : Double :=
  ⟨BitVec.ofNat 64 ((if negative then signWeight else 0) + nearestBits n d)⟩

/-- The same magnitude with the given sign. -/
def withSign (negative : Bool) (x : Double) : Double :=
  ⟨BitVec.ofNat 64 ((if negative then signWeight else 0) + x.bits.toNat % signWeight)⟩

def infinity (negative : Bool) : Double :=
  withSign negative ⟨BitVec.ofNat 64 infinityBits⟩

/-- The product of two finite magnitudes, rounded once. -/
def mulMagnitude (x y : Double) : Double :=
  ofRatio false (x.ratio.1 * y.ratio.1) (x.ratio.2 * y.ratio.2)

/-- The quotient of two finite magnitudes, rounded once. The divisor is not
zero. -/
def divMagnitude (x y : Double) : Double :=
  ofRatio false (x.ratio.1 * y.ratio.2) (x.ratio.2 * y.ratio.1)

/-- The double nearest to a power of ten. -/
def powerOfTen (k : Nat) : Double :=
  ofRatio false (Nat.pow 10 k) 1

/-- The binary64 number of the same value as a binary32 number, given by its
bits. A NaN keeps its payload and becomes quiet. -/
def ofSingle (single : BitVec 32) : Double :=
  let negative := decide (0x80000000 ≤ single.toNat)
  let exponent := single.toNat / 0x800000 % 256
  let fraction := single.toNat % 0x800000
  if exponent = 255 then
    if fraction = 0 then
      infinity negative
    else
      let payload := fraction % 0x400000 * 0x20000000
      withSign negative ⟨BitVec.ofNat 64 (infinityBits + exponentWeight / 2 + payload)⟩
  else if exponent = 0 then
    ofRatio negative fraction (Nat.pow 2 149)
  else
    ofRatio negative ((0x800000 + fraction) * Nat.pow 2 exponent) (Nat.pow 2 150)

/-- Equality of numbers: a NaN differs from everything and zero has no sign. -/
def numericEq (x y : Double) : Bool :=
  !x.isNaN && !y.isNaN && (x == y || x.isZero && y.isZero)

end Double

end TypedSyntax
