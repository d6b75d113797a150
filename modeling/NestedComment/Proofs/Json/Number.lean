import Mathlib.Algebra.Group.Nat.Defs
import Mathlib.Order.Bounds.Basic
import Mathlib.Order.Nat
import NestedComment.Json.Number

/-!
# Reading back the digits of a number

The digits of a natural number, with something behind them that does not go on with a number
(`Ends`), are read as one number: the natural number itself up to `maxNatural` (`read_natural`), and
above it a floating-point number made of the leading digits that fit a natural number and of a power
of ten for the others (`read_floating`). `absorb_toDigits` says which digits fit.
-/

namespace NestedComment.Json.Number

/-- The greatest natural number is the one before `2 ^ 64`. -/
lemma le_maxNatural_iff {n : Nat} : n ≤ maxNatural ↔ n < 2 ^ 64 :=
  Nat.lt_succ_iff.symm

/-- A text that does not go on with a number. -/
def Ends (rest : List Char) : Prop :=
  ∀ c ∈ rest.head?, c.isDigit = false ∧ c ≠ '.' ∧ c ≠ 'e' ∧ c ≠ 'E'

section

variable {ds es rest : List Char} {n k : Nat}

/-- A digit is no other character. -/
lemma ne_of_isDigit {c d : Char} (hd : d.isDigit = true) (hc : c.isDigit = false) : d ≠ c := by
  rintro rfl
  rw [hd] at hc
  cases hc

/-- A number begins with a digit. -/
lemma toDigits_head (n : Nat) : ∃ d ds, Nat.toDigits 10 n = d :: ds ∧ d.isDigit = true := by
  obtain ⟨d, ds, hds⟩ := List.exists_cons_of_ne_nil (Nat.toDigits_ne_nil (n := n) (b := 10))
  have hmem : d ∈ Nat.toDigits 10 n := hds ▸ List.mem_cons_self
  exact ⟨d, ds, hds, Nat.isDigit_of_mem_toDigits (by omega) (by omega) hmem⟩

/-- Digits are read up to what does not go on with a number. -/
lemma digits_append (hds : ∀ c ∈ ds, c.isDigit = true) (ends : Ends rest) :
    digits (ds ++ rest) = (ds, rest) := by
  have hhead : rest.takeWhile Char.isDigit = [] ∧ rest.dropWhile Char.isDigit = rest := by
    cases rest with
    | nil => exact ⟨rfl, rfl⟩
    | cons c rest =>
      obtain ⟨hc, -⟩ := ends c rfl
      simp [hc]
  rw [digits, List.takeWhile_append_of_pos hds, List.dropWhile_append_of_pos hds, hhead.1, hhead.2,
    List.append_nil]

/-- A positive number does not begin with a zero. -/
lemma toDigits_eq_cons (h : 0 < n) : ∃ d ds, Nat.toDigits 10 n = d :: ds ∧ d ≠ '0' := by
  induction n using Nat.strongRecOn with
  | ind n ih =>
    rcases Nat.lt_or_ge n 10 with hlt | hge
    · refine ⟨n.digitChar, [], Nat.toDigits_of_lt_base hlt, ?_⟩
      intro hzero
      have hdigit := Nat.toNat_digitChar_of_lt_ten hlt
      rw [hzero] at hdigit
      have : '0'.toNat = 48 := rfl
      omega
    · obtain ⟨d, ds, hds, hd⟩ := ih (n / 10) (by omega) (by omega)
      rw [Nat.toDigits_of_base_le (by omega) hge, hds]
      exact ⟨d, _, rfl, hd⟩

/-- A whole number is read up to what does not go on with a number. -/
lemma whole_toDigits (n : Nat) (ends : Ends rest) :
    whole (Nat.toDigits 10 n ++ rest) = .ok (Nat.toDigits 10 n, rest) := by
  rcases Nat.eq_zero_or_pos n with rfl | hpos
  · have hhead : ¬rest.head?.any Char.isDigit = true := by
      rw [Option.any_eq_true]
      rintro ⟨c, hc, hdigit⟩
      rw [(ends c hc).1] at hdigit
      cases hdigit
    exact if_neg hhead
  · obtain ⟨d, ds, hds, hd⟩ := toDigits_eq_cons hpos
    have hdigits : ∀ c ∈ Nat.toDigits 10 n, c.isDigit = true := fun c hc =>
      Nat.isDigit_of_mem_toDigits (by omega) (by omega) hc
    have hread := digits_append hdigits ends
    rw [hds] at hdigits hread ⊢
    rw [List.cons_append] at hread ⊢
    rw [whole, someDigits, if_pos (hdigits d List.mem_cons_self), hread]
    intro rest' heq
    exact hd (List.cons.inj heq).1

/-- There is no fraction in what does not go on with a number. -/
lemma fraction?_of_ends (ends : Ends rest) : fraction? rest = .ok (none, rest) := by
  cases rest with
  | nil => rfl
  | cons c rest =>
    obtain ⟨-, hpoint, -⟩ := ends c rfl
    rw [fraction?]
    intro rest' heq
    exact hpoint (List.cons.inj heq).1

/-- There is no exponent in what does not go on with a number. -/
lemma exponent?_of_ends (ends : Ends rest) : exponent? rest = .ok (none, rest) := by
  cases rest with
  | nil => rfl
  | cons c rest =>
    obtain ⟨-, -, he, hE⟩ := ends c rfl
    exact if_neg (not_or.2 ⟨he, hE⟩)

/-- Digits are taken in until the first that does not fit, and none behind it. -/
lemma absorb_append (n : Nat) (ds es : List Char) :
    absorb n (ds ++ es) =
      if (absorb n ds).2 = [] then absorb (absorb n ds).1 es
      else ((absorb n ds).1, (absorb n ds).2 ++ es) := by
  induction ds generalizing n with
  | nil => rfl
  | cons c ds ih =>
    rw [List.cons_append, absorb, absorb]
    split
    · exact ih _
    · rfl

/-- One digit is taken in if the number still fits behind it. -/
lemma absorb_digit {d : Nat} (hd : d < 10) :
    absorb n [d.digitChar] =
      if 10 * n + d ≤ maxNatural then (10 * n + d, []) else (n, [d.digitChar]) := by
  have hvalue : d.digitChar.toNat - '0'.toNat = d := by
    rw [Nat.toNat_digitChar_of_lt_ten hd]
    exact Nat.add_sub_cancel_left 48 d
  rw [absorb, hvalue]
  rfl

/-- To leave out one digit more is to leave out the last one first. -/
lemma div_pow_succ (n k : Nat) : n / 10 ^ (k + 1) = n / 10 / 10 ^ k := by
  rw [Nat.pow_succ', Nat.div_div_eq_div_mul]

/-- A number that does not fit has to leave out one digit more than the number before its last. -/
lemma isLeast_succ (h : maxNatural < n) (least : IsLeast {k | n / 10 / 10 ^ k ≤ maxNatural} k) :
    IsLeast {k | n / 10 ^ k ≤ maxNatural} (k + 1) := by
  refine ⟨?_, ?_⟩
  · rw [Set.mem_ofPred_eq, div_pow_succ]
    exact least.1
  · intro j hj
    cases j with
    | zero =>
      rw [Set.mem_ofPred_eq, Nat.pow_zero, Nat.div_one] at hj
      omega
    | succ j =>
      rw [Set.mem_ofPred_eq, div_pow_succ] at hj
      exact Nat.succ_le_succ (least.2 hj)

/-- Of the digits of a number the leading ones are taken in, as many as fit. -/
theorem absorb_toDigits (n : Nat) : ∃ k, IsLeast {k | n / 10 ^ k ≤ maxNatural} k ∧
    (absorb 0 (Nat.toDigits 10 n)).1 = n / 10 ^ k ∧
    (absorb 0 (Nat.toDigits 10 n)).2.length = k := by
  induction n using Nat.strongRecOn with
  | ind n ih =>
    rcases Nat.lt_or_ge n 10 with hlt | hge
    · have hfits : 10 * 0 + n ≤ maxNatural := by
        rw [le_maxNatural_iff]
        omega
      rw [Nat.toDigits_of_lt_base hlt, absorb_digit hlt, if_pos hfits]
      refine ⟨0, ⟨?_, fun _ _ => Nat.zero_le _⟩, by simp, rfl⟩
      simpa using hfits
    · obtain ⟨k, least, hnumber, hexcess⟩ := ih (n / 10) (by omega)
      have hd : n % 10 < 10 := Nat.mod_lt _ (by omega)
      have hn : 10 * (n / 10) + n % 10 = n := Nat.div_add_mod n 10
      rw [Nat.toDigits_of_base_le (by omega) hge, absorb_append]
      by_cases hfits : n ≤ maxNatural
      · have hbefore : n / 10 / 10 ^ 0 ≤ maxNatural := by
          rw [Nat.pow_zero, Nat.div_one]
          omega
        obtain rfl : k = 0 := Nat.le_zero.1 (least.2 hbefore)
        rw [if_pos (List.length_eq_zero_iff.1 hexcess), hnumber, Nat.pow_zero, Nat.div_one,
          absorb_digit hd, hn, if_pos hfits]
        refine ⟨0, ⟨?_, fun _ _ => Nat.zero_le _⟩, by simp, rfl⟩
        simpa using hfits
      · refine ⟨k + 1, isLeast_succ (by omega) least, ?_⟩
        rw [div_pow_succ]
        cases k with
        | zero =>
          rw [if_pos (List.length_eq_zero_iff.1 hexcess), hnumber, Nat.pow_zero, Nat.div_one,
            absorb_digit hd, hn, if_neg hfits]
          exact ⟨rfl, rfl⟩
        | succ k =>
          have hleft : (absorb 0 (Nat.toDigits 10 (n / 10))).2 ≠ [] := by
            intro hnil
            rw [hnil] at hexcess
            cases hexcess
          rw [if_neg hleft, List.length_append, hexcess]
          exact ⟨hnumber, rfl⟩

/-- A whole number that fits is a natural one. -/
lemma ofParts?_natural (h : n ≤ maxNatural) :
    ofParts? false (Nat.toDigits 10 n) none none = some (.natural n) := by
  obtain ⟨k, least, hnumber, hexcess⟩ := absorb_toDigits n
  obtain rfl : k = 0 := Nat.le_zero.1 (least.2 (by simpa using h))
  rw [List.length_eq_zero_iff] at hexcess
  simp [ofParts?, hnumber, hexcess]

/-- A whole number that does not fit is made of the digits that do and of a power of ten. -/
lemma ofParts?_floating {x : Decimal.Binary64} (h : maxNatural < n)
    (least : IsLeast {k | n / 10 ^ k ≤ maxNatural} k)
    (hx : Decimal.Binary64.ofDecimal? false (n / 10 ^ k) k = some x) :
    ofParts? false (Nat.toDigits 10 n) none none = some (.floating x) := by
  obtain ⟨j, least', hnumber, hexcess⟩ := absorb_toDigits n
  obtain rfl : j = k := Nat.le_antisymm (least'.2 least.1) (least.2 least'.1)
  have hpos : (absorb 0 (Nat.toDigits 10 n)).2 ≠ [] := by
    rintro hnil
    rw [hnil, List.length_nil] at hexcess
    subst hexcess
    have := least.1
    simp at this
    omega
  simp [ofParts?, hnumber, hexcess, hpos, hx]

/-- The digits of a number are read as what they make. -/
lemma read_toDigits {x : Number} (ends : Ends rest)
    (hx : ofParts? false (Nat.toDigits 10 n) none none = some x) :
    read (Nat.toDigits 10 n ++ rest) = .ok (x, rest) := by
  have hmagnitude : magnitude false (Nat.toDigits 10 n ++ rest) = .ok (x, rest) := by
    rw [magnitude, whole_toDigits n ends]
    simp only [bind, Except.bind, fraction?_of_ends ends, exponent?_of_ends ends, hx]
  obtain ⟨d, ds, hds, hd⟩ := toDigits_head n
  rw [hds] at hmagnitude ⊢
  rw [List.cons_append, read, ← List.cons_append, hmagnitude]
  intro rest' heq
  exact ne_of_isDigit hd rfl (List.cons.inj heq).1

/-- A natural number that fits is read back. -/
theorem read_natural (ends : Ends rest) (h : n ≤ maxNatural) :
    read (Nat.toDigits 10 n ++ rest) = .ok (.natural n, rest) :=
  read_toDigits ends (ofParts?_natural h)

/-- Of a natural number that does not fit the last digits are read as a power of ten. -/
theorem read_floating {x : Decimal.Binary64} (ends : Ends rest) (h : maxNatural < n)
    (least : IsLeast {k | n / 10 ^ k ≤ maxNatural} k)
    (hx : Decimal.Binary64.ofDecimal? false (n / 10 ^ k) k = some x) :
    read (Nat.toDigits 10 n ++ rest) = .ok (.floating x, rest) :=
  read_toDigits ends (ofParts?_floating h least hx)

end

end NestedComment.Json.Number
