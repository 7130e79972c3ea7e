/-!
# Binary64 numbers

A number is the 64-bit word of an IEEE 754 double: a sign bit, eleven bits of exponent and fifty-two
of fraction. Nothing here computes with machine floats: values are decoded to natural numbers, and
`ofNat` rounds to nearest, ties to even.
-/

namespace TypedLowering

/-- A double-precision number, by its word. -/
structure Binary64 where
  bits : UInt64
  deriving DecidableEq, Repr, Inhabited

namespace Binary64

/-- The word as a natural number. -/
def word (x : Binary64) : Nat := x.bits.toNat

/-- The sign bit of a word. -/
def signUnit : Nat := 0x8000000000000000

/-- The lowest bit of the exponent in a word: fractions are below it, and adding it to the fraction
of a normal number gives the significand. -/
def exponentUnit : Nat := 0x10000000000000

/-- Whether the sign bit is set; it also is on `-0` and on some NaNs. -/
def signBit (x : Binary64) : Bool := signUnit ≤ x.word

/-- The eleven exponent bits. -/
def exponentBits (x : Binary64) : Nat := x.word / exponentUnit % 2048

/-- The fifty-two fraction bits. -/
def fractionBits (x : Binary64) : Nat := x.word % exponentUnit

/-- The word stands for no number. -/
def isNaN (x : Binary64) : Bool := x.exponentBits == 2047 && x.fractionBits != 0

/-- The word stands for one of the infinities. -/
def isInfinite (x : Binary64) : Bool := x.exponentBits == 2047 && x.fractionBits == 0

/-- The word stands for a rational number or a zero. -/
def isFinite (x : Binary64) : Bool := x.exponentBits != 2047

/-- Whether `x` is zero, of either sign. -/
def isZero (x : Binary64) : Bool := x.exponentBits == 0 && x.fractionBits == 0

/-- Whether `x` is written with a minus sign in front: the sign bit is set, and `x` is a number. -/
def isNegative (x : Binary64) : Bool := !x.isNaN && x.signBit

/-- The integer significand of a finite number, of which `x` is a power-of-two multiple. -/
def significand (x : Binary64) : Nat :=
  if x.exponentBits = 0 then x.fractionBits else exponentUnit + x.fractionBits

/-- The exponent of that power of two: `x = ± significand * 2 ^ scale`. -/
def scale (x : Binary64) : Int :=
  (if x.exponentBits = 0 then (1 : Int) else x.exponentBits) - 1075

/-- The magnitude of a finite number without its fractional part. -/
def wholePart (x : Binary64) : Nat :=
  if 0 ≤ x.scale then x.significand <<< x.scale.toNat
  else x.significand >>> (-x.scale).toNat

/-- Whether a finite number is an integer. -/
def isIntegral (x : Binary64) : Bool :=
  x.isFinite && (0 ≤ x.scale || x.significand % (1 <<< (-x.scale).toNat) == 0)

/-- A finite number without its fractional part. -/
def truncate (x : Binary64) : Int :=
  if x.signBit then -(x.wholePart : Int) else x.wholePart

/-- The largest signed 64-bit integer. -/
def maxInt64 : Int := 0x7FFFFFFFFFFFFFFF

/-- The nearest signed 64-bit integer towards zero: NaN gives zero, and what lies outside the range
gives its nearer end. -/
def toInt64 (x : Binary64) : Int :=
  if x.isNaN then 0
  else if x.isInfinite then if x.signBit then -maxInt64 - 1 else maxInt64
  else if maxInt64 < x.truncate then maxInt64
  else if x.truncate < -maxInt64 - 1 then -maxInt64 - 1
  else x.truncate

/-- Positive infinity. -/
def infinity : Binary64 := ⟨0x7FF0000000000000⟩

/-- The word of the double nearest to `n`, ties to even. The fraction is added to the exponent
field, so that a fraction which rounds up to the next power of two carries into it. -/
def wordOfNat (n : Nat) : Nat :=
  if n = 0 then 0
  else
    let e := n.log2
    if e ≤ 52 then (e + 1023) * exponentUnit + (n <<< (52 - e) - exponentUnit)
    else if 1023 < e then infinity.word
    else
      let unit := 1 <<< (e - 52)
      let floor := n / unit
      let rest := n % unit
      let up := decide (unit < 2 * rest) || (unit == 2 * rest && floor % 2 == 1)
      (e + 1023) * exponentUnit + (floor - exponentUnit) + (if up then 1 else 0)

/-- The double nearest to `n`. -/
def ofNat (n : Nat) : Binary64 := ⟨UInt64.ofNat (wordOfNat n)⟩

/-- The double nearest to `i`. -/
def ofInt (i : Int) : Binary64 :=
  if i < 0 then ⟨UInt64.ofNat (signUnit + wordOfNat i.natAbs)⟩ else ofNat i.natAbs

/-- The integer that `x` is, when all integers up to its magnitude are doubles and it is not
`-0`. -/
def toInt? (x : Binary64) : Option Int :=
  if x.isIntegral && x.wholePart ≤ 2 * exponentUnit && !(x.isZero && x.signBit) then some x.truncate
  else none

end Binary64

end TypedLowering
