import Mathlib.Algebra.Order.Field.Power
import Mathlib.Data.Nat.Cast.Order.Field
import Mathlib.Data.Nat.Log
import Mathlib.Data.Rat.Cast.Order
import Mathlib.Tactic.FieldSimp
import Mathlib.Tactic.Linarith
import Mathlib.Tactic.Positivity
import Mathlib.Tactic.Ring
import NestedComment.Decimal.Binary64

/-!
# Numbers that are in range

A quotient that is at least one is rounded to a magnitude with a full significand and at most twice
as large (`approximates_round`), and so is a product (`approximates_multiply`). A full significand
leaves room for no more than a certain exponent below a given number (`Approximates.exponent_le`),
so the decimal numbers below `10 ^ 300` are in range (`exists_ofDecimal?`).
-/

namespace NestedComment.Decimal

/-- A power of two as computed is one in the usual sense. -/
lemma powerOfTwo_eq (k : ℕ) : powerOfTwo k = 2 ^ k := rfl

/-- A power of ten as computed is one in the usual sense. -/
lemma powerOfTen_eq (k : ℕ) : powerOfTen k = 10 ^ k := rfl

/-- A power of two with an exponent of either sign as a quotient of natural numbers. -/
lemma zpow_eq_div (e : ℤ) : (2 : ℚ) ^ e = 2 ^ e.toNat / 2 ^ (-e).toNat := by
  rw [← zpow_natCast, ← zpow_natCast, ← zpow_sub₀ two_ne_zero]
  congr 1
  omega

namespace Magnitude

/-- The number that a magnitude stands for. -/
def value (x : Magnitude) : ℚ :=
  x.significand * 2 ^ x.exponent

/-- A magnitude with a full significand that stands for a number of at least one, and of no more
than twice `q`. -/
structure Approximates (x : Magnitude) (q : ℚ) : Prop where
  full : 2 ^ 52 ≤ x.significand
  one_le : 1 ≤ x.value
  le : x.value ≤ 2 * q

section

variable {num den : ℕ}

/-- The logarithm of a quotient of at least one is computed exactly, up to its fraction. -/
lemma log2Quotient_bounds (hden : 0 < den) (hle : den ≤ num) :
    ∃ k : ℕ, log2Quotient num den = k ∧ den * 2 ^ k ≤ num ∧ num < den * 2 ^ (k + 1) := by
  have hnum : 0 < num := hden.trans_le hle
  have hlog : den.log2 ≤ num.log2 := by
    rw [Nat.log2_eq_log_two, Nat.log2_eq_log_two]
    exact Nat.log_mono_right hle
  obtain ⟨g, hg⟩ := Nat.exists_eq_add_of_le hlog
  have hguess : (num.log2 : ℤ) - den.log2 = (g : ℤ) := by omega
  have hnum1 : 2 ^ (den.log2 + g) ≤ num := hg ▸ Nat.log2_self_le hnum.ne'
  have hnum2 : num < 2 ^ (den.log2 + g + 1) := hg ▸ Nat.lt_log2_self
  have hden1 : 2 ^ den.log2 ≤ den := Nat.log2_self_le hden.ne'
  have hden2 : den < 2 ^ (den.log2 + 1) := Nat.lt_log2_self
  rw [log2Quotient]
  simp only [hguess, powerOfTwo_eq, Int.toNat_natCast]
  have hneg : (-(g : ℤ)).toNat = 0 := by omega
  rw [hneg, pow_zero, mul_one]
  split
  · next hfits =>
    refine ⟨g, rfl, hfits, hnum2.trans_le ?_⟩
    rw [add_assoc, pow_add]
    exact Nat.mul_le_mul_right _ hden1
  · next hfits =>
    cases g with
    | zero => exact absurd (by simpa using hle) hfits
    | succ g =>
      refine ⟨g, by omega, ?_, not_le.1 hfits⟩
      refine le_trans ?_ hnum1
      rw [show den.log2 + (g + 1) = den.log2 + 1 + g by omega, pow_add _ (den.log2 + 1)]
      exact Nat.mul_le_mul_right _ hden2.le

/-- A rounded quotient is the whole part of the quotient or one more. -/
lemma roundQuotient_bounds (num den : ℕ) :
    num / den ≤ roundQuotient num den ∧ roundQuotient num den ≤ num / den + 1 := by
  rw [roundQuotient]
  split
  · exact ⟨Nat.le_succ _, le_rfl⟩
  · exact ⟨le_rfl, Nat.le_succ _⟩

/-- Scaled to 53 bits, a quotient whose logarithm is `k` is rounded to no fewer. -/
lemma roundQuotient_scaled {k n p : ℕ} (hden : 0 < den) (hlow : den * 2 ^ k ≤ num)
    (hscale : p + k = n + 52) :
    2 ^ 52 ≤ roundQuotient (num * 2 ^ p) (den * 2 ^ n) ∧
      (roundQuotient (num * 2 ^ p) (den * 2 ^ n) : ℚ) ≤ 2 * (num * 2 ^ p / (den * 2 ^ n)) := by
  have hpos : 0 < den * 2 ^ n := by positivity
  have hfloor : 2 ^ 52 ≤ num * 2 ^ p / (den * 2 ^ n) := by
    rw [Nat.le_div_iff_mul_le hpos]
    calc 2 ^ 52 * (den * 2 ^ n)
      _ = den * 2 ^ k * 2 ^ p := by rw [mul_assoc den, ← pow_add, add_comm k, hscale, pow_add]; ring
      _ ≤ num * 2 ^ p := Nat.mul_le_mul_right _ hlow
  obtain ⟨hle, hge⟩ := roundQuotient_bounds (num * 2 ^ p) (den * 2 ^ n)
  refine ⟨hfloor.trans hle, ?_⟩
  have hdiv : ((num * 2 ^ p / (den * 2 ^ n) : ℕ) : ℚ) ≤ num * 2 ^ p / (den * 2 ^ n) := by
    exact_mod_cast Nat.cast_div_le (α := ℚ) (m := num * 2 ^ p) (n := den * 2 ^ n)
  have hround : (roundQuotient (num * 2 ^ p) (den * 2 ^ n) : ℚ) ≤
      (num * 2 ^ p / (den * 2 ^ n) : ℕ) + 1 := by
    exact_mod_cast hge
  have hone : (1 : ℚ) ≤ (num * 2 ^ p / (den * 2 ^ n) : ℕ) := by
    exact_mod_cast (Nat.one_le_two_pow).trans hfloor
  linarith

/-- One bit too many makes the exponent greater and the number no other. -/
def carry (significand : ℕ) (exponent : ℤ) : Magnitude :=
  if significand = powerOfTwo precision then ⟨powerOfTwo (precision - 1), exponent + 1⟩
  else ⟨significand, exponent⟩

/-- To carry a bit changes no number. -/
lemma value_carry (s : ℕ) (e : ℤ) : (carry s e).value = s * 2 ^ e := by
  rw [carry]
  split
  · next hs =>
    rw [hs, value, powerOfTwo_eq, powerOfTwo_eq, precision, zpow_add_one₀ two_ne_zero]
    push_cast
    ring
  · rfl

/-- To carry a bit keeps a significand full. -/
lemma full_carry {s : ℕ} {e : ℤ} (h : 2 ^ 52 ≤ s) : 2 ^ 52 ≤ (carry s e).significand := by
  rw [carry]
  split
  · exact le_rfl
  · exact h

/-- A quotient that is at least one keeps a full significand when it is rounded. -/
theorem approximates_round (hden : 0 < den) (hle : den ≤ num) :
    (round num den).Approximates (num / den) := by
  obtain ⟨k, hlog, hlow, -⟩ := log2Quotient_bounds hden hle
  have hnum : num ≠ 0 := (hden.trans_le hle).ne'
  have hexponent : max (log2Quotient num den - (precision - 1)) minExponent = (k : ℤ) - 52 := by
    rw [hlog, precision, minExponent]
    omega
  obtain ⟨e, he⟩ : ∃ e : ℤ, e = k - 52 := ⟨_, rfl⟩
  have hround : round num den =
      carry (roundQuotient (num * 2 ^ (-e).toNat) (den * 2 ^ e.toNat)) e := by
    rw [round, if_neg hnum, hexponent, ← he]
    rfl
  obtain ⟨hfull, htwice⟩ := roundQuotient_scaled hden hlow (n := e.toNat) (p := (-e).toNat)
    (by omega)
  rw [hround]
  refine ⟨full_carry hfull, ?_, ?_⟩
  · rw [value_carry]
    calc (1 : ℚ)
      _ ≤ 2 ^ k := one_le_pow₀ one_le_two
      _ = 2 ^ 52 * 2 ^ e := by
        rw [he, zpow_sub₀ two_ne_zero, zpow_natCast]
        norm_num
        ring
      _ ≤ _ := by
        gcongr
        exact_mod_cast hfull
  · rw [value_carry, zpow_eq_div]
    have hdenQ : (den : ℚ) ≠ 0 := by
      exact_mod_cast hden.ne'
    calc (roundQuotient (num * 2 ^ (-e).toNat) (den * 2 ^ e.toNat) : ℚ) *
          (2 ^ e.toNat / 2 ^ (-e).toNat)
      _ ≤ 2 * (num * 2 ^ (-e).toNat / (den * 2 ^ e.toNat)) *
          (2 ^ e.toNat / 2 ^ (-e).toNat) := by gcongr
      _ = 2 * (num / den) := by field_simp

end

section

variable {x y : Magnitude} {q : ℚ}

/-- A magnitude as a quotient of natural numbers. -/
lemma quotient_eq (n : ℕ) (e : ℤ) :
    ((quotient n e).1 : ℚ) / (quotient n e).2 = n * 2 ^ e := by
  rw [quotient, zpow_eq_div, powerOfTwo_eq, powerOfTwo_eq]
  push_cast
  ring

/-- The product of magnitudes that are at least one is rounded likewise. -/
lemma approximates_multiply (hx : 1 ≤ x.value) (hy : 1 ≤ y.value) :
    (multiply x y).Approximates (x.value * y.value) := by
  have hproduct := quotient_eq (x.significand * y.significand) (x.exponent + y.exponent)
  have hvalue : (((x.significand * y.significand : ℕ) : ℚ)) * 2 ^ (x.exponent + y.exponent) =
      x.value * y.value := by
    rw [value, value, zpow_add₀ two_ne_zero]
    push_cast
    ring
  rw [hvalue] at hproduct
  have hpos : 0 < (quotient (x.significand * y.significand) (x.exponent + y.exponent)).2 :=
    Nat.two_pow_pos _
  rw [multiply]
  generalize quotient (x.significand * y.significand) (x.exponent + y.exponent) = nd at *
  obtain ⟨num, den⟩ := nd
  have hle : den ≤ num := by
    have hone : (1 : ℚ) ≤ num / den := by
      rw [hproduct]
      exact one_le_mul_of_one_le_of_one_le hx hy
    rw [one_le_div (by exact_mod_cast hpos)] at hone
    exact_mod_cast hone
  rw [← hproduct]
  exact approximates_round hpos hle

/-- A full significand bounds the exponent of a number that is not too large. -/
lemma Approximates.exponent_le (h : x.Approximates q) (hq : 2 * q < 2 ^ 1024) :
    x.exponent ≤ maxExponent := by
  have hfull : (2 : ℚ) ^ 52 ≤ x.significand := by
    exact_mod_cast h.full
  have hlt : (2 : ℚ) ^ (52 + x.exponent) < 2 ^ (1024 : ℤ) := by
    calc (2 : ℚ) ^ (52 + x.exponent)
      _ = 2 ^ 52 * 2 ^ x.exponent := by
        rw [zpow_add₀ two_ne_zero]
        norm_num
      _ ≤ x.value := by
        rw [value]
        gcongr
      _ ≤ 2 * q := h.le
      _ < 2 ^ (1024 : ℤ) := by exact_mod_cast hq
  have hexponent := (zpow_lt_zpow_iff_right₀ one_lt_two).1 hlt
  rw [maxExponent]
  omega

end

/-- Eight times `10 ^ 300` is in the range of floating-point numbers. -/
lemma eight_mul_ten_pow_lt : (8 : ℚ) * 10 ^ 300 < 2 ^ 1024 := by
  have hthousand : (10 : ℚ) ^ 300 < 2 ^ 1000 := by
    rw [show 300 = 3 * 100 from rfl, show 1000 = 10 * 100 from rfl, pow_mul, pow_mul]
    exact pow_lt_pow_left₀ (by norm_num) (by norm_num) (by norm_num)
  have height : (8 : ℚ) = 2 ^ 3 := by norm_num
  calc (8 : ℚ) * 10 ^ 300
    _ < 8 * 2 ^ 1000 := mul_lt_mul_of_pos_left hthousand (by norm_num)
    _ = 2 ^ 3 * 2 ^ 1000 := by rw [height]
    _ = 2 ^ 1003 := (pow_add 2 3 1000).symm
    _ < 2 ^ 1024 := pow_lt_pow_right₀ one_lt_two (by norm_num)

/-- A decimal number below `10 ^ 300` whose digits are not zero is in range. -/
theorem exists_ofDecimal? {digits k : ℕ} (hdigits : 0 < digits)
    (hlt : digits * 10 ^ k < 10 ^ 300) :
    ∃ x, Binary64.ofDecimal? false digits k = some x := by
  have hten : (ten k).Approximates (10 ^ k) := by
    have hpos : 0 < powerOfTen k := Nat.pow_pos (by omega)
    have hround := approximates_round Nat.one_pos hpos
    rwa [powerOfTen_eq, Nat.cast_pow, Nat.cast_one, div_one] at hround
  have hround : (round digits 1).Approximates digits := by
    simpa using approximates_round Nat.one_pos hdigits
  have hproduct := approximates_multiply hround.one_le hten.one_le
  have hrange : (multiply (round digits 1) (ten k)).exponent ≤ maxExponent := by
    apply hproduct.exponent_le
    have hltQ : (digits : ℚ) * 10 ^ k < 10 ^ 300 := by
      have hcast := (Nat.cast_lt (α := ℚ)).2 hlt
      rwa [Nat.cast_mul, Nat.cast_pow, Nat.cast_pow] at hcast
    have hpos := hten.one_le
    calc 2 * ((round digits 1).value * (ten k).value)
      _ ≤ 2 * ((2 * digits) * (2 * 10 ^ k)) := by
        gcongr
        · exact hround.le
        · exact hten.le
      _ = 8 * (digits * 10 ^ k) := by ring
      _ < 8 * 10 ^ 300 := mul_lt_mul_of_pos_left hltQ (by norm_num)
      _ < 2 ^ 1024 := eight_mul_ten_pow_lt
  have hk : k ≤ maxPower := by
    have hpow : 10 ^ k < 10 ^ 300 := (Nat.le_mul_of_pos_left _ hdigits).trans_lt hlt
    have := (Nat.pow_lt_pow_iff_right (by norm_num)).1 hpow
    rw [maxPower]
    omega
  have hread : ofDecimal? digits k = some (multiply (round digits 1) (ten k)) := by
    rw [ofDecimal?, if_neg (by omega), if_neg hdigits.ne', Int.toNat_natCast, if_pos hk]
    exact if_pos hrange
  exact ⟨_, congrArg (Option.map _) hread⟩

end Magnitude

end NestedComment.Decimal
