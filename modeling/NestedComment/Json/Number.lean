import NestedComment.Json.Text

/-!
# Numbers in a document

A number is read digit by digit, and kept as a natural number or a negative integer where that is
exact. What is too large for that, or has a fraction or an exponent, is a floating-point number made
of the leading digits that fit a natural number and a power of ten. `length_read` says that reading
leaves less of the text.
-/

namespace NestedComment.Json

namespace Number

/-- The digits at the start of a text, and the rest. -/
def digits (cs : List Char) : List Char × List Char :=
  (cs.takeWhile Char.isDigit, cs.dropWhile Char.isDigit)

/-- At least one digit, and the rest. -/
def someDigits : List Char → Except Fault (List Char × List Char)
  | [] => .error .truncated
  | c :: rest => if c.isDigit then .ok (digits (c :: rest)) else .error .malformed

/-- The digits before the point; a zero is the only one if it is the first. -/
def whole : List Char → Except Fault (List Char × List Char)
  | '0' :: rest =>
    if rest.head?.any Char.isDigit then .error .malformed else .ok (['0'], rest)
  | cs => someDigits cs

/-- The digits after a point, if there is a point. -/
def fraction? : List Char → Except Fault (Option (List Char) × List Char)
  | '.' :: rest => do
    let (ds, rest) ← someDigits rest
    .ok (some ds, rest)
  | cs => .ok (none, cs)

/-- The exponent of ten, if there is one. -/
def exponent? : List Char → Except Fault (Option Int × List Char)
  | c :: rest =>
    if c = 'e' ∨ c = 'E' then do
      let (minus, rest) := match rest with
        | '-' :: rest => (true, rest)
        | '+' :: rest => (false, rest)
        | _ => (false, rest)
      let (ds, rest) ← someDigits rest
      let n : Int := Nat.ofDigitChars 10 ds 0
      .ok (some (if minus then -n else n), rest)
    else .ok (none, c :: rest)
  | [] => .ok (none, [])

/-- Takes digits into a number while it stays at most `maxNatural`, and leaves the others. -/
def absorb (n : Nat) : List Char → Nat × List Char
  | [] => (n, [])
  | c :: rest =>
    let m := 10 * n + (c.toNat - '0'.toNat)
    if m ≤ maxNatural then absorb m rest else (n, c :: rest)

/-- The number with the given parts, unless it is out of range. A number without a fraction or an
exponent is a floating-point number if it is a negative zero or too large to be kept exactly. -/
def ofParts? (minus : Bool) (ds : List Char) (fraction : Option (List Char))
    (exponent : Option Int) : Option Number :=
  let (n, excess) := absorb 0 ds
  match fraction, exponent with
  | none, none =>
    if excess.isEmpty then
      if !minus then some (.natural n)
      else if n ≠ 0 ∧ n ≤ maxNegative then some (.negative n)
      else (Decimal.Binary64.ofDecimal? minus n 0).map .floating
    else (Decimal.Binary64.ofDecimal? minus n excess.length).map .floating
  | _, _ =>
    let ds := fraction.getD []
    let (m, left) := absorb n ds
    let power : Int := excess.length + left.length - ds.length + exponent.getD 0
    (Decimal.Binary64.ofDecimal? minus m power).map .floating

/-- Reads a number without its sign. -/
def magnitude (minus : Bool) (cs : List Char) : Except Fault (Number × List Char) := do
  let (ds, rest) ← whole cs
  let (fraction, rest) ← fraction? rest
  let (exponent, rest) ← exponent? rest
  match ofParts? minus ds fraction exponent with
  | some n => .ok (n, rest)
  | none => .error .malformed

/-- Reads a number. -/
def read : List Char → Except Fault (Number × List Char)
  | '-' :: rest => magnitude true rest
  | cs => magnitude false cs

/-- What is left behind some digits is shorter than the text. -/
theorem length_someDigits {cs ds rest : List Char} (h : someDigits cs = .ok (ds, rest)) :
    rest.length < cs.length := by
  cases cs with
  | nil => cases h
  | cons c cs =>
    simp only [someDigits] at h
    split at h
    · rename_i digit
      obtain ⟨-, rfl⟩ := Prod.mk.inj (Except.ok.inj h)
      have := (List.dropWhile_suffix (l := cs) Char.isDigit).length_le
      simp only [List.dropWhile_cons, digit, if_true, List.length_cons]
      omega
    · cases h

/-- What is left behind a whole number is shorter than the text. -/
theorem length_whole {cs ds rest : List Char} (h : whole cs = .ok (ds, rest)) :
    rest.length < cs.length := by
  unfold whole at h
  split at h
  · split at h
    · cases h
    · obtain ⟨-, rfl⟩ := Prod.mk.inj (Except.ok.inj h); simp
  · exact length_someDigits h

/-- What is left behind a fraction, or none, is no longer than the text. -/
theorem length_fraction? {cs rest : List Char} {ds : Option (List Char)}
    (h : fraction? cs = .ok (ds, rest)) : rest.length ≤ cs.length := by
  unfold fraction? at h
  split at h
  · obtain ⟨⟨_, _⟩, h1, h⟩ := bind_eq_ok.1 h
    have := length_someDigits h1
    obtain ⟨-, rfl⟩ := Prod.mk.inj (Except.ok.inj h)
    simp only [List.length_cons]; omega
  · obtain ⟨-, rfl⟩ := Prod.mk.inj (Except.ok.inj h); omega

/-- What is left behind an exponent, or none, is no longer than the text. -/
theorem length_exponent? {cs rest : List Char} {n : Option Int}
    (h : exponent? cs = .ok (n, rest)) : rest.length ≤ cs.length := by
  unfold exponent? at h
  split at h
  · split at h
    · obtain ⟨⟨_, _⟩, h1, h⟩ := bind_eq_ok.1 h
      have := length_someDigits h1
      obtain ⟨-, rfl⟩ := Prod.mk.inj (Except.ok.inj h)
      split at this <;> simp only [List.length_cons] at this ⊢ <;> omega
    · obtain ⟨-, rfl⟩ := Prod.mk.inj (Except.ok.inj h); omega
  · obtain ⟨-, rfl⟩ := Prod.mk.inj (Except.ok.inj h); omega

/-- What is left behind a number without its sign is shorter than the text. -/
theorem length_magnitude {minus : Bool} {cs rest : List Char} {n : Number}
    (h : magnitude minus cs = .ok (n, rest)) : rest.length < cs.length := by
  obtain ⟨⟨_, _⟩, h1, h⟩ := bind_eq_ok.1 h
  obtain ⟨⟨_, _⟩, h2, h⟩ := bind_eq_ok.1 h
  obtain ⟨⟨_, _⟩, h3, h⟩ := bind_eq_ok.1 h
  have l1 := length_whole h1
  have l2 := length_fraction? h2
  have l3 := length_exponent? h3
  simp only at h
  split at h
  · obtain ⟨-, rfl⟩ := Prod.mk.inj (Except.ok.inj h); omega
  · cases h

/-- A number has a digit, so what follows it is shorter. -/
theorem length_read {cs rest : List Char} {n : Number} (h : read cs = .ok (n, rest)) :
    rest.length < cs.length := by
  unfold read at h
  split at h
  · have := length_magnitude h
    simp only [List.length_cons]; omega
  · exact length_magnitude h

end Number

end NestedComment.Json
