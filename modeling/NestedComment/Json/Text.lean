import NestedComment.Json.Fault

/-!
# Texts in a document

A text between double quotes. Control characters have to be escaped, and a pair of surrogates
written by number stands for one character; a surrogate alone is malformed. `length_read` says that
reading leaves less of the text.
-/

namespace NestedComment.Json.Text

/-- The value of a hexadecimal digit of either case. -/
def hexDigit? (c : Char) : Option Nat :=
  if c.isDigit then some (c.toNat - '0'.toNat)
  else if 'a' ≤ c ∧ c ≤ 'f' then some (c.toNat - 'a'.toNat + 10)
  else if 'A' ≤ c ∧ c ≤ 'F' then some (c.toNat - 'A'.toNat + 10)
  else none

/-- Reads four hexadecimal digits. With fewer than four bytes left the document ends too early. -/
def codeUnit : List Char → Except Fault (Nat × List Char)
  | a :: b :: c :: d :: rest =>
    match hexDigit? a, hexDigit? b, hexDigit? c, hexDigit? d with
    | some a, some b, some c, some d => .ok (((a * 16 + b) * 16 + c) * 16 + d, rest)
    | _, _, _, _ => .error .malformed
  | short =>
    .error (if (String.ofList short).utf8ByteSize < 4 then .truncated else .malformed)

/-- The first of a pair of surrogates. -/
def isLeading (unit : Nat) : Bool := 0xD800 ≤ unit && unit < 0xDC00

/-- The second of a pair of surrogates. -/
def isTrailing (unit : Nat) : Bool := 0xDC00 ≤ unit && unit < 0xE000

/-- The character that a pair of surrogates stands for. -/
def pair (leading trailing : Nat) : Char :=
  Char.ofNat (0x10000 + (leading - 0xD800) * 0x400 + (trailing - 0xDC00))

/-- Reads one given character. -/
def expect (c : Char) : List Char → Except Fault (List Char)
  | [] => .error .truncated
  | d :: rest => if d = c then .ok rest else .error .malformed

/-- Reads a character by number, after the `\u`. -/
def byNumber (cs : List Char) : Except Fault (Char × List Char) := do
  let (unit, rest) ← codeUnit cs
  if isTrailing unit then .error .malformed
  else if isLeading unit then
    let rest ← expect '\\' rest
    let rest ← expect 'u' rest
    let (second, rest) ← codeUnit rest
    if isTrailing second then .ok (pair unit second, rest) else .error .malformed
  else .ok (Char.ofNat unit, rest)

/-- The character that a letter or a mark stands for after a backslash. -/
def short? : Char → Option Char
  | '"' => some '"'
  | '\\' => some '\\'
  | '/' => some '/'
  | 'b' => some '\x08'
  | 'f' => some '\x0c'
  | 'n' => some '\n'
  | 'r' => some '\r'
  | 't' => some '\t'
  | _ => none

/-- Reads what follows a backslash. -/
def escaped : List Char → Except Fault (Char × List Char)
  | [] => .error .truncated
  | c :: rest =>
    if c = 'u' then byNumber rest
    else match short? c with
      | some d => .ok (d, rest)
      | none => .error .malformed

/-- What is left behind a code unit is shorter than the text. -/
theorem length_codeUnit {cs rest : List Char} {n : Nat} (h : codeUnit cs = .ok (n, rest)) :
    rest.length < cs.length := by
  unfold codeUnit at h
  split at h
  · split at h
    · cases h; simp only [List.length_cons]; omega
    · cases h
  · cases h

/-- What is left behind an expected character is shorter than the text. -/
theorem length_expect {c : Char} {cs rest : List Char} (h : expect c cs = .ok rest) :
    rest.length < cs.length := by
  cases cs with
  | nil => cases h
  | cons d ds =>
    simp only [expect] at h
    split at h
    · cases h; simp
    · cases h

/-- What is left behind a character that is given by its number is shorter than the text. -/
theorem length_byNumber {cs rest : List Char} {c : Char} (h : byNumber cs = .ok (c, rest)) :
    rest.length < cs.length := by
  obtain ⟨⟨n, cs1⟩, h1, h⟩ := bind_eq_ok.1 h
  have l1 := length_codeUnit h1
  simp only at h
  split at h
  · cases h
  · split at h
    · obtain ⟨cs2, h2, h⟩ := bind_eq_ok.1 h
      obtain ⟨cs3, h3, h⟩ := bind_eq_ok.1 h
      obtain ⟨⟨m, cs4⟩, h4, h⟩ := bind_eq_ok.1 h
      have l2 := length_expect h2
      have l3 := length_expect h3
      have l4 := length_codeUnit h4
      simp only at h
      split at h
      · obtain ⟨-, rfl⟩ := Prod.mk.inj (Except.ok.inj h); omega
      · cases h
    · obtain ⟨-, rfl⟩ := Prod.mk.inj (Except.ok.inj h); exact l1

/-- What is left behind an escape is shorter than the text. -/
theorem length_escaped {cs rest : List Char} {c : Char} (h : escaped cs = .ok (c, rest)) :
    rest.length < cs.length := by
  cases cs with
  | nil => cases h
  | cons d ds =>
    simp only [escaped] at h
    split at h
    · have := length_byNumber h
      simp only [List.length_cons]; omega
    · split at h
      · cases h; simp
      · cases h

/-- Reads a text up to its closing quote, after the opening one. -/
def read (cs : List Char) : Except Fault (List Char × List Char) :=
  match cs with
  | [] => .error .truncated
  | '"' :: rest => .ok ([], rest)
  | '\\' :: rest =>
    match _h : escaped rest with
    | .error e => .error e
    | .ok (c, rest) => do
      let (s, rest) ← read rest
      .ok (c :: s, rest)
  | c :: rest =>
    if c.toNat < 0x20 then .error .malformed
    else do
      let (s, rest) ← read rest
      .ok (c :: s, rest)
termination_by cs.length
decreasing_by
  · have := length_escaped _h; simp only [List.length_cons]; omega
  · simp

/-- The closing quote belongs to a text, so what follows it is shorter. -/
theorem length_read {cs s rest : List Char} (h : read cs = .ok (s, rest)) :
    rest.length < cs.length := by
  fun_induction read cs generalizing s rest with
  | case1 => cases h
  | case2 => cases h; simp
  | case3 => cases h
  | case4 cs c cs' hc ih =>
    obtain ⟨⟨_, _⟩, h1, h⟩ := bind_eq_ok.1 h
    obtain ⟨-, rfl⟩ := Prod.mk.inj (Except.ok.inj h)
    have := ih h1
    have := length_escaped hc
    simp only [List.length_cons]; omega
  | case5 => cases h
  | case6 c cs _ _ _ ih =>
    obtain ⟨⟨_, _⟩, h1, h⟩ := bind_eq_ok.1 h
    obtain ⟨-, rfl⟩ := Prod.mk.inj (Except.ok.inj h)
    have := ih h1
    simp only [List.length_cons]; omega

end NestedComment.Json.Text
