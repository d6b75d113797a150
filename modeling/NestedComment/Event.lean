import NestedComment.Scan.Basic

/-!
# Events

What a scanner reports about itself while it works, for a log. Each event has one line of text: its
level, the scan it belongs to, and what happened.
-/

namespace NestedComment

/-- Something that a scanner reports about itself. -/
inductive Event where
  /-- A scan found a token; `valid` tells whether the host called comments valid there, if it said
  anything about them. -/
  | scanned (valid : Option Bool) (token : Token)
  /-- A scan found no token. -/
  | abstained (valid : Option Bool) (reason : Abstention)
  /-- A state of `length` bytes was handed over, though a scanner has none. -/
  | ignoredState (length : Nat)
  deriving DecidableEq

namespace Event

/-- How a line names the scan that it belongs to. -/
def context (valid : Option Bool) : String :=
  let field := match valid with
    | none => ""
    | some true => "comment_valid=true"
    | some false => "comment_valid=false"
  "scan\x7b" ++ field ++ "\x7d: "

/-- The line of an event in a log. -/
def line : Event → String
  | scanned valid token =>
    "TRACE " ++ context valid ++ "scanned comment symbol=" ++ token.symbol.name ++ " deepest="
      ++ toString token.deepest
  | abstained valid reason =>
    "TRACE " ++ context valid ++ "abstained reason=" ++ reason.message
  | ignoredState length =>
    "DEBUG ignoring non-empty scanner state len=" ++ toString length

end Event

end NestedComment
