import NestedComment.Whitespace

/-!
# Options of a scan

A limit on nesting and the choice of the blanks that are skipped before a comment. Both are fixed
for the whole of a scan.
-/

namespace NestedComment

/-- What a scan may be asked to do differently. The default has no limit and skips every Unicode
blank. -/
structure Options where
  /-- The deepest nesting accepted, where the outermost comment counts as 1. -/
  maxDepth : Option UInt64 := none
  /-- Whether only the ASCII blanks are skipped before a comment. -/
  asciiWhitespaceOnly : Bool := false
  deriving DecidableEq

namespace Options

/-- Whether a code point is skipped before a comment. -/
def isWhitespace (o : Options) (c : Char) : Bool :=
  if o.asciiWhitespaceOnly then Whitespace.isAsciiBlank c else Whitespace.isBlank c

/-- A parenthesis is never skipped, so a scan cannot miss the start of a comment. -/
@[simp] theorem isWhitespace_paren (o : Options) : o.isWhitespace '(' = false := by
  unfold isWhitespace; split <;> decide

end Options

end NestedComment
