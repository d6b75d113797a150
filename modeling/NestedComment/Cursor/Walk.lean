import NestedComment.Cursor.Progress

/-!
# Walks over an input

A walk scans at every offset of an input that no token found before covers: after a token it goes on
at the end of the token, and after a scan without one at the next byte.
-/

namespace NestedComment

/-- A scan at an offset of an input. -/
structure Visit where
  start : Nat
  verdict : Verdict
  /-- The cursor after the scan. -/
  cursor : Cursor

namespace Visit

/-- Scans at an offset. -/
def make (o : Options) (input : List UInt8) (start : Nat) : Visit :=
  let (verdict, cursor) := Scan.scan o (Cursor.atOffset input start)
  { start, verdict, cursor }

/-- The offset at which a walk goes on. -/
def next (v : Visit) : Nat :=
  match v.verdict with
  | .ok _ => v.cursor.position
  | .error _ => v.start + 1

/-- The loop goes on behind the place of its last visit. -/
theorem start_lt_next (o : Options) {input : List UInt8} {start : Nat} (h : start < input.length) :
    start < (make o input start).next := by
  unfold make next
  split
  · next t ht =>
    have hp := Cursor.position_lt_of_scan (Prod.ext ht rfl)
    rw [Cursor.position_atOffset (Nat.le_of_lt h)] at hp
    exact hp.1
  · exact Nat.lt_succ_self _

end Visit

/-- The visits of a walk from an offset on. -/
def walkFrom (o : Options) (input : List UInt8) (start : Nat) : List Visit :=
  if _h : start < input.length then
    let v := Visit.make o input start
    v :: walkFrom o input v.next
  else []
termination_by input.length - start
decreasing_by have := Visit.start_lt_next o _h; omega

/-- The visits of a walk over an input. -/
def walk (o : Options) (input : List UInt8) : List Visit :=
  walkFrom o input 0

end NestedComment
