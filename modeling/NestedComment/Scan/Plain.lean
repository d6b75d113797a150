import NestedComment.Host.Basic
import NestedComment.Options.Basic

/-!
# The plain loop

A second recogniser of nested comments, to check scans against. It is one loop over the code points
of a comment that looks past each half of a delimiter at once, and tells only whether there is a
comment.
-/

namespace NestedComment.Scan.Plain

universe u

variable {σ : Type u} [BoundedHost σ]

/-- Whether more comments are open than a limit allows. -/
def exceeds (limit : Option UInt64) (depth : Nat) : Bool :=
  limit.any fun l => l.toNat < depth

/-- Moves past the blanks. -/
def skipBlanks (o : Options) (h : σ) : σ :=
  if _he : Host.eof h = false then
    if o.isWhitespace (Host.lookahead h) then skipBlanks o (Host.advance true h) else h
  else h
termination_by BoundedHost.size h
decreasing_by exact BoundedHost.size_advance_lt true h _he

/-- Moves to the end of a comment of which `depth` levels are open. -/
def body (limit : Option UInt64) (depth : Nat) (h : σ) : Bool × σ :=
  if _he : Host.eof h = false then
    let g := Host.advance false h
    if Host.lookahead h = '*' then
      if Host.peek g = some ')' then
        if depth - 1 = 0 then (true, Host.advance false g) else body limit (depth - 1) g
      else body limit depth g
    else if Host.lookahead h = '(' then
      if Host.peek g = some '*' then
        if exceeds limit (depth + 1) then (false, g) else body limit (depth + 1) g
      else body limit depth g
    else body limit depth g
  else (false, h)
termination_by BoundedHost.size h
decreasing_by all_goals exact BoundedHost.size_advance_lt false h _he

/-- Tells whether a comment stands at the cursor, after blanks, and moves to its end. -/
def scan (o : Options) (h : σ) : Bool × σ :=
  let h := skipBlanks o h
  if Host.peek h = some '(' then
    let h := Host.advance false h
    if Host.peek h = some '*' then
      let h := Host.advance false h
      if exceeds o.maxDepth 1 then (false, h) else body o.maxDepth 1 h
    else (false, h)
  else (false, h)

end NestedComment.Scan.Plain
