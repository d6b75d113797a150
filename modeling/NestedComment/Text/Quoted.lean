import NestedComment.Text.Unprintable

/-!
# Quoted characters and texts

A character between single quotes and a text between double quotes, as messages show them. The
quote of the surrounding pair and the backslash are escaped, four control characters have short
forms, and every other character without a glyph is written by its number in hexadecimal.
-/

namespace NestedComment.Text.Quoted

/-- The number of a character in hexadecimal, as `\u` and braces around the digits. -/
def byNumber (c : Char) : List Char :=
  ['\\', 'u', '\x7b'] ++ Nat.toDigits 16 c.toNat ++ ['\x7d']

/-- Whether a character is shown by its number. -/
def hasNoGlyph (c : Char) : Bool :=
  c.toNat < 0x20 || c = '\x7f' || Unprintable.isUnprintable c

/-- The form of a character between two marks `mark`. -/
def escape (mark c : Char) : List Char :=
  if c = '\x00' then ['\\', '0']
  else if c = '\t' then ['\\', 't']
  else if c = '\n' then ['\\', 'n']
  else if c = '\r' then ['\\', 'r']
  else if c = '\\' then ['\\', '\\']
  else if c = mark then ['\\', mark]
  else if hasNoGlyph c then byNumber c
  else [c]

/-- A character between single quotes. -/
def quoteChar (c : Char) : String :=
  String.ofList ('\'' :: escape '\'' c ++ ['\''])

/-- A text between double quotes. -/
def quoteText (s : List Char) : String :=
  String.ofList ('"' :: s.flatMap (escape '"') ++ ['"'])

end NestedComment.Text.Quoted
