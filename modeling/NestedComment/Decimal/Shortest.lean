import NestedComment.Decimal.Binary64

/-!
# The shortest decimal text of a number

The fewest digits that are read back as the same binary64 number, and of those the nearest to it.
`Layout` holds the choice that remains: where digits are written in place and where with an
exponent.
-/

namespace NestedComment.Decimal

/-- The number `digits · 10 ^ power`. -/
structure Scaled where
  digits : Nat
  power : Int
  deriving DecidableEq

/-- The same number without trailing zeros among its digits. -/
def Scaled.trim (digits : Nat) (power : Int) : Scaled :=
  if h : digits ≠ 0 ∧ digits % 10 = 0 then trim (digits / 10) (power + 1) else ⟨digits, power⟩
termination_by digits
decreasing_by omega

namespace Magnitude

/-- The greatest `k` with `10 ^ k ≤ num / den`, for positive `num` and `den` whose quotient is no
less than `10 ^ -bound`. -/
def log10Quotient (bound num den : Nat) : Int :=
  if den ≤ num then ((Nat.toDigits 10 (num / den)).length : Int) - 1
  else
    match (List.range (bound + 1)).find? fun k => den ≤ num * powerOfTen k with
    | some k => -(k : Int)
    | none => -(bound : Int)

/-- Whether a decimal number is read back as `x`, which is the case between the middles of the gaps
to the two neighbours of `x`; the middles themselves go to an even significand. The gap below a
power of two is half as wide as the gap above it. -/
def isReadFrom (x : Magnitude) (d : Scaled) : Bool :=
  let below :=
    if x.significand = powerOfTwo (precision - 1) ∧ minExponent < x.exponent then 1 else 2
  -- All three numbers are counted in quarters of the last bit of `x`.
  let quarter := x.exponent - 2
  let scale (n : Nat) : Nat := n * powerOfTwo quarter.toNat * powerOfTen (-d.power).toNat
  let low := scale (4 * x.significand - below)
  let high := scale (4 * x.significand + 2)
  let middle := d.digits * powerOfTen d.power.toNat * powerOfTwo (-quarter).toNat
  if x.significand % 2 = 0 then low ≤ middle && middle ≤ high else low < middle && middle < high

/-- The nearer of the two neighbours of `x` on the grid of the multiples of `10 ^ power` that are
read back as `x`, if any is. -/
def onGrid? (x : Magnitude) (power : Int) : Option Scaled :=
  let num := x.significand * powerOfTwo x.exponent.toNat * powerOfTen (-power).toNat
  let den := powerOfTwo (-x.exponent).toNat * powerOfTen power.toNat
  let lower : Scaled := ⟨num / den, power⟩
  let upper : Scaled := ⟨num / den + 1, power⟩
  match x.isReadFrom lower, x.isReadFrom upper with
  | true, true => some (if roundQuotient num den = num / den then lower else upper)
  | true, false => some lower
  | false, true => some upper
  | false, false => none

/-- The most digits that any number needs. -/
def maxDigits : Nat := 17

/-- Every positive number is at least ten to the power of minus this. -/
def powerBound : Nat := 400

/-- The shortest decimal number that is read back as `x`. -/
def shortest (x : Magnitude) : Scaled :=
  if x.significand = 0 then ⟨0, 0⟩
  else
    let (num, den) := quotient x.significand x.exponent
    let leading := log10Quotient powerBound num den
    -- The grids become finer; the first one with a hit gives the fewest digits.
    let grids := (List.range maxDigits).map fun (n : Nat) => leading - n
    match grids.findSome? x.onGrid? with
    | some d => Scaled.trim d.digits d.power
    | none => ⟨0, 0⟩

end Magnitude

/-- How a number is written. -/
structure Layout where
  /-- The least exponent of the leading digit with which all digits are written in place. -/
  leastInPlace : Int
  /-- The greatest such exponent. -/
  greatestInPlace : Int

namespace Layout

/-- Digits in place, with a point and at least one digit on each side of it. -/
def inPlace (digits : List Char) (leading : Int) : List Char :=
  let whole := (leading + 1).toNat
  if leading < 0 then
    ['0', '.'] ++ List.replicate (-leading - 1).toNat '0' ++ digits
  else if digits.length ≤ whole then
    digits ++ List.replicate (whole - digits.length) '0' ++ ['.', '0']
  else digits.take whole ++ '.' :: digits.drop whole

/-- One digit, a point if more digits follow, and the exponent of ten with its sign. -/
def withExponent (digits : List Char) (leading : Int) : List Char :=
  let fraction := match digits.drop 1 with
    | [] => []
    | ds => '.' :: ds
  digits.take 1 ++ fraction ++ ['e', if leading < 0 then '-' else '+']
    ++ Nat.toDigits 10 leading.natAbs

/-- The text of a number. -/
def render (layout : Layout) (x : Binary64) : List Char :=
  let d := x.magnitude.shortest
  let digits := Nat.toDigits 10 d.digits
  let leading := d.power + digits.length - 1
  let text :=
    if layout.leastInPlace ≤ leading ∧ leading ≤ layout.greatestInPlace then
      inPlace digits leading
    else withExponent digits leading
  if x.negative then '-' :: text else text

end Layout

end NestedComment.Decimal
