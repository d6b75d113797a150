/-!
# Binary64 numbers

The finite numbers of the binary64 format, as exact products of a natural number and a power of
two, with rounding to the nearest of them. Nothing here depends on the arithmetic of a machine.
`Binary64.ofDecimal?` reads a decimal number in the way that documents fix: one rounding for the
digits, one for the power of ten and one for their product or quotient.
-/

namespace NestedComment.Decimal

/-- A power of two. -/
def powerOfTwo (k : Nat) : Nat := Nat.pow 2 k

/-- A power of ten. -/
def powerOfTen (k : Nat) : Nat := Nat.pow 10 k

/-- The number `significand · 2 ^ exponent`. -/
structure Magnitude where
  significand : Nat
  exponent : Int
  deriving DecidableEq

/-- A finite number with its sign, which a zero has as well. -/
structure Binary64 where
  negative : Bool
  magnitude : Magnitude
  deriving DecidableEq

namespace Magnitude

/-- The least exponent of two. -/
def minExponent : Int := -1074

/-- The greatest exponent of two of a finite number. -/
def maxExponent : Int := 971

/-- The number of bits of a significand. -/
def precision : Nat := 53

/-- A natural number and a power of two as a quotient of natural numbers. -/
def quotient (n : Nat) (exponent : Int) : Nat × Nat :=
  (n * powerOfTwo exponent.toNat, powerOfTwo (-exponent).toNat)

/-- The greatest `k` with `2 ^ k ≤ num / den`, for positive `num` and `den`. -/
def log2Quotient (num den : Nat) : Int :=
  let guess : Int := (num.log2 : Int) - den.log2
  if den * powerOfTwo guess.toNat ≤ num * powerOfTwo (-guess).toNat then guess
  else guess - 1

/-- The natural number nearest to `num / den`, and of two the even one. -/
def roundQuotient (num den : Nat) : Nat :=
  let floor := num / den
  let twice := 2 * (num % den)
  if den < twice ∨ (twice = den ∧ floor % 2 = 1) then floor + 1 else floor

/-- The magnitude nearest to `num / den`, and of two the one with an even significand. Its exponent
may be greater than that of any finite number. -/
def round (num den : Nat) : Magnitude :=
  if num = 0 then ⟨0, minExponent⟩
  else
    let exponent := max (log2Quotient num den - (precision - 1)) minExponent
    let significand :=
      roundQuotient (num * powerOfTwo (-exponent).toNat) (den * powerOfTwo exponent.toNat)
    -- Rounding up may have made one bit too many.
    if significand = powerOfTwo precision then ⟨powerOfTwo (precision - 1), exponent + 1⟩
    else ⟨significand, exponent⟩

/-- The power `10 ^ k`, rounded. -/
def ten (k : Nat) : Magnitude :=
  round (powerOfTen k) 1

/-- The product of two magnitudes, rounded. -/
def multiply (x y : Magnitude) : Magnitude :=
  let (num, den) := quotient (x.significand * y.significand) (x.exponent + y.exponent)
  round num den

/-- The quotient of a magnitude by a positive one, rounded. -/
def divide (x y : Magnitude) : Magnitude :=
  let (num, den) := quotient x.significand (x.exponent - y.exponent)
  round num (den * y.significand)

/-- The greatest power of ten that is used in one step. -/
def maxPower : Nat := 308

/-- Divides a magnitude by `10 ^ k`, by the greatest power first. -/
def scaleDown (x : Magnitude) (k : Nat) : Magnitude :=
  if k ≤ maxPower then divide x (ten k)
  else if x.significand = 0 then x
  else scaleDown (divide x (ten maxPower)) (k - maxPower)
termination_by k
decreasing_by simp only [maxPower] at *; omega

/-- The magnitude `digits · 10 ^ power`, unless it is out of range. -/
def ofDecimal? (digits : Nat) (power : Int) : Option Magnitude :=
  let x := round digits 1
  let inRange (y : Magnitude) : Option Magnitude :=
    if y.exponent ≤ maxExponent then some y else none
  if power < 0 then inRange (scaleDown x (-power).toNat)
  else if digits = 0 then some x
  else if power.toNat ≤ maxPower then inRange (multiply x (ten power.toNat))
  else none

end Magnitude

/-- The number `± digits · 10 ^ power`, unless it is out of range. -/
def Binary64.ofDecimal? (negative : Bool) (digits : Nat) (power : Int) : Option Binary64 :=
  (Magnitude.ofDecimal? digits power).map (⟨negative, ·⟩)

end NestedComment.Decimal
