import NestedComment.Text.Quoted

/-!
# Reasons to abstain

Why a scan produced no token, and the message that tells a reader so. None of the reasons is an
error of the host: it goes on with its own tokens from where its cursor was left.
-/

namespace NestedComment

/-- Why a scan produced no token. -/
inductive Abstention where
  /-- After the blanks stands no opening parenthesis, but `found`, or nothing at all. -/
  | notAComment (found : Option Char)
  /-- An opening parenthesis was taken, but no star follows it. -/
  | partialOpener (found : Option Char)
  /-- The input ended inside `depth` open comments. -/
  | unterminated (depth : Nat)
  /-- One more comment was opened than `limit` allows. -/
  | depthLimit (limit : UInt64)
  deriving DecidableEq

namespace Abstention

/-- How a message names what stands at the cursor. -/
def describe : Option Char → String
  | none => "end of input"
  | some c => Text.Quoted.quoteChar c

/-- The message for a reader. -/
def message : Abstention → String
  | notAComment found => "no comment at cursor (found " ++ describe found ++ ")"
  | partialOpener found => "'(' not followed by '*' (found " ++ describe found ++ ")"
  | unterminated depth => "unterminated comment, " ++ toString depth ++ " level(s) still open"
  | depthLimit limit => "comment nesting exceeds limit of " ++ toString limit.toNat

end Abstention

end NestedComment
