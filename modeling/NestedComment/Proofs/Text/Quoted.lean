import Mathlib.Order.Nat
import NestedComment.Text.Quoted

/-!
# Reading a quoted character

A form between two marks tells the character it stands for: one character stands for itself, a
backslash and one more for a control character or for what is behind the backslash, and a longer
form holds a number in hexadecimal. `standsFor_escape` reads every form back, so no two characters
are quoted alike (`quoteChar_injective`).
-/

namespace NestedComment.Text.Quoted

/-- The value of a hexadecimal digit in lower case. -/
def digitValue (c : Char) : Nat :=
  if c.isDigit then c.toNat - '0'.toNat else c.toNat - 'a'.toNat + 10

/-- The number that hexadecimal digits stand for. -/
def hexValue (ds : List Char) : Nat :=
  ds.foldl (fun n c => 16 * n + digitValue c) 0

/-- The character that one behind a backslash stands for. -/
def ofShort (c : Char) : Char :=
  if c = '0' then '\x00'
  else if c = 't' then '\t'
  else if c = 'n' then '\n'
  else if c = 'r' then '\r'
  else c

/-- The character that a form stands for. -/
def standsFor : List Char → Option Char
  | [c] => some c
  | ['\\', c] => some (ofShort c)
  | '\\' :: 'u' :: '\x7b' :: form => some (Char.ofNat (hexValue form.dropLast))
  | _ => none

section

variable {mark : Char}

/-- A hexadecimal digit has the value that it is written for. -/
lemma digitValue_digitChar : ∀ d < 16, digitValue d.digitChar = d := by decide

/-- The digits of a number stand for it. -/
lemma hexValue_toDigits (n : Nat) : hexValue (Nat.toDigits 16 n) = n := by
  induction n using Nat.strongRecOn with
  | ind n ih =>
    rcases Nat.lt_or_ge n 16 with hlt | hge
    · rw [Nat.toDigits_of_lt_base hlt, hexValue, List.foldl_cons, List.foldl_nil,
        digitValue_digitChar n hlt, Nat.mul_zero, Nat.zero_add]
    · have hfront := ih (n / 16) (by omega)
      rw [hexValue] at hfront
      rw [Nat.toDigits_of_base_le (by omega) hge, hexValue, List.foldl_append, hfront,
        List.foldl_cons, List.foldl_nil, digitValue_digitChar (n % 16) (Nat.mod_lt n (by omega)),
        Nat.div_add_mod]

/-- A character that is written by its number is read back. -/
lemma standsFor_byNumber (c : Char) : standsFor (byNumber c) = some c := by
  show some (Char.ofNat (hexValue (Nat.toDigits 16 c.toNat ++ ['\x7d']).dropLast)) = some c
  rw [List.dropLast_concat, hexValue_toDigits, Char.ofNat_toNat]

/-- Every form is read back, if the mark has no meaning of its own behind a backslash. -/
theorem standsFor_escape (hmark : ofShort mark = mark) (c : Char) :
    standsFor (escape mark c) = some c := by
  rw [escape]
  split
  · next hc => rw [hc]; rfl
  split
  · next hc => rw [hc]; rfl
  split
  · next hc => rw [hc]; rfl
  split
  · next hc => rw [hc]; rfl
  split
  · next hc => rw [hc]; rfl
  split
  · next hc => rw [hc, standsFor, hmark]
  split
  · exact standsFor_byNumber c
  · rfl

/-- No two characters have the same form. -/
lemma escape_inj (hmark : ofShort mark = mark) {c d : Char} :
    escape mark c = escape mark d ↔ c = d := by
  refine ⟨fun h => ?_, fun h => by rw [h]⟩
  have hread := standsFor_escape hmark c
  rw [h, standsFor_escape hmark d] at hread
  exact (Option.some.inj hread).symm

/-- No two characters are quoted alike. -/
lemma quoteChar_injective : Function.Injective quoteChar := by
  intro c d h
  rw [quoteChar, quoteChar, String.ofList_inj] at h
  have hforms := List.append_cancel_right (List.cons.inj h).2
  exact (escape_inj rfl).1 hforms

end

end NestedComment.Text.Quoted
