import TypedLowering.Number.Binary64

/-!
# The shortest decimal text of a number

`digits` generates the decimal digits of a positive double one by one and stops as soon as the
digits so far, or the digits so far with the last one raised, lie among the reals that round to the
double. The result is the shortest decimal that reads back, and of those the nearest; an exact tie
goes up. `text` writes it positionally, without an exponent, however long that is.
-/

namespace TypedLowering.Binary64

/-- A positive number `value / denominator` with the distances to the ends of the interval of reals
that round to it, over the same denominator. The ends belong to the interval when the significand
is even. -/
structure Interval where
  value : Nat
  below : Nat
  above : Nat
  denominator : Nat
  closed : Bool

/-- The rounding interval of a positive finite number. Below a power of two the neighbour is only
half as far away. -/
def interval (x : Binary64) : Interval :=
  let power := x.significand = exponentUnit
  let unit : Nat := if power then 4 else 2
  let exponent := x.scale - (if power then 2 else 1)
  let up := 1 <<< exponent.toNat
  { value := x.significand * unit * up
    below := up
    above := (if power then 2 else 1) * up
    denominator := 1 <<< (-exponent).toNat
    closed := x.significand % 2 == 0 }

namespace Interval

/-- Whether the upper end stays under `bound`, so that the number has no digit there. -/
def under (i : Interval) (bound : Nat) : Bool :=
  if i.closed then i.value + i.above < bound else i.value + i.above ≤ bound

/-- Multiplies the number by ten. -/
def times10 (i : Interval) : Interval :=
  { i with value := i.value * 10, below := i.below * 10, above := i.above * 10 }

/-- Multiplies the denominator by ten until the number lies under one; the count is the position of
the decimal point. -/
def scaleDown : Nat → Interval → Int → Interval × Int
  | 0, i, k => (i, k)
  | n + 1, i, k =>
    if i.under i.denominator then (i, k)
    else scaleDown n { i with denominator := i.denominator * 10 } (k + 1)

/-- Multiplies the number by ten while it stays under one. -/
def scaleUp : Nat → Interval → Int → Interval × Int
  | 0, i, k => (i, k)
  | n + 1, i, k =>
    if i.times10.under i.denominator then scaleUp n i.times10 (k - 1) else (i, k)

/-- The number brought to `[0.1, 1)`, up to its interval, and the power of ten taken out. -/
def normalize (i : Interval) : Interval × Int :=
  let (i, k) := i.scaleDown 330 0
  i.scaleUp 340 k

/-- Raises the last digit of a list that is in reverse order; `true` when a one is carried out. -/
def raise : List Nat → List Nat × Bool
  | [] => ([], true)
  | d :: ds => if d < 9 then ((d + 1) :: ds, false) else
      let (rest, carry) := raise ds
      (0 :: rest, carry)

/-- The digits after the point, last one first, and whether the last one is to be raised. No double
needs more than seventeen. -/
def generate : Nat → Interval → List Nat → List Nat × Bool
  | 0, _, acc => (acc, false)
  | n + 1, i, acc =>
    let i := i.times10
    let digit := i.value / i.denominator
    let i := { i with value := i.value % i.denominator }
    let down := if i.closed then i.value ≤ i.below else i.value < i.below
    let up := !i.under i.denominator
    if down || up then
      (digit :: acc, up && (!down || i.denominator ≤ 2 * i.value))
    else generate n i (digit :: acc)

end Interval

/-- The shortest digits of a positive finite number, and the place of the point: the number is
`0.d₁d₂… * 10 ^ k`. -/
def digits (x : Binary64) : List Nat × Int :=
  let (i, k) := x.interval.normalize
  let (reversed, up) := i.generate 17 []
  if up then
    let (raised, carry) := Interval.raise reversed
    if carry then (1 :: raised.reverse, k + 1) else (raised.reverse, k)
  else (reversed.reverse, k)

/-- Digits with the point at place `k`, zeros filled in. -/
def positional (ds : List Nat) (k : Int) : String :=
  let text := String.ofList (ds.map Nat.digitChar)
  let zeros (n : Nat) := String.ofList (List.replicate n '0')
  if k ≤ 0 then "0." ++ zeros (-k).toNat ++ text
  else if ds.length ≤ k.toNat then text ++ zeros (k.toNat - ds.length)
  else
    String.ofList ((ds.take k.toNat).map Nat.digitChar) ++ "." ++
      String.ofList ((ds.drop k.toNat).map Nat.digitChar)

/-- The shortest text of a finite number that reads back as the same word. -/
def finiteText (x : Binary64) : String :=
  let sign := if x.signBit then "-" else ""
  if x.isZero then sign ++ "0"
  else
    let (ds, k) := x.digits
    sign ++ positional ds k

/-- The text of a number in code. -/
def text (x : Binary64) : String :=
  if x.isNaN then "NaN"
  else if x.isInfinite then if x.signBit then "-Infinity" else "Infinity"
  else x.finiteText

end TypedLowering.Binary64
