/-!
# White space

The two classes of blanks that may stand before a comment: every code point with the Unicode
property White_Space, and the five ASCII blanks. `isBlank_of_isAsciiBlank` says that the second
class is part of the first.
-/

namespace NestedComment.Whitespace

/-- The code points with the Unicode property White_Space, as inclusive ranges. -/
def ranges : List (Nat × Nat) :=
  [(0x09, 0x0D), (0x20, 0x20), (0x85, 0x85), (0xA0, 0xA0), (0x1680, 0x1680), (0x2000, 0x200A),
   (0x2028, 0x2029), (0x202F, 0x202F), (0x205F, 0x205F), (0x3000, 0x3000)]

/-- Whether a code point has the Unicode property White_Space. -/
def isBlank (c : Char) : Bool :=
  ranges.any fun (low, high) => low ≤ c.toNat && c.toNat ≤ high

/-- Whether a code point is an ASCII blank: space, tab, line feed, form feed or carriage return.
The vertical tab is none. -/
def isAsciiBlank (c : Char) : Bool :=
  c = ' ' || c = '\t' || c = '\n' || c = '\x0C' || c = '\r'

/-- Every ASCII blank is a Unicode blank. -/
theorem isBlank_of_isAsciiBlank {c : Char} (h : isAsciiBlank c = true) : isBlank c = true := by
  simp only [isAsciiBlank, Bool.or_eq_true, decide_eq_true_eq] at h
  rcases h with (((rfl | rfl) | rfl) | rfl) | rfl <;> decide

end NestedComment.Whitespace
