import NestedComment.Event
import NestedComment.Scan.Run

/-!
# Scanners

What a host keeps between scans, and the calls that it makes on it. A scanner keeps its options and
nothing else, so it writes an empty state and a state that was read back changes nothing.
-/

namespace NestedComment

universe u

/-- A scanner with its options. -/
structure Scanner where
  options : Options := {}
  deriving DecidableEq

namespace Scanner

/-- The size of the buffer that a host hands over for a state. -/
def stateBufferSize : Nat := 1024

/-- Scans for a comment at the cursor, and tells whether it found one. The host says which symbols
are valid there, but a comment may stand anywhere: what it says is only reported. -/
def scan {σ : Type u} [BoundedHost σ] (s : Scanner) (valid : List Bool) (h : σ) :
    Bool × σ × Event :=
  let isValid := valid[Symbol.comment.ordinal.toNat]?
  match Scan.scan s.options h with
  | (.ok token, h) => (true, h, .scanned isValid token)
  | (.error reason, h) => (false, h, .abstained isValid reason)

/-- Writes the state into a buffer and tells how many bytes it takes, which is none. -/
def writeState (_ : Scanner) (buffer : List UInt8) : List UInt8 × Nat :=
  (buffer, 0)

/-- Reads a state back. There is none to read, so a state that is not empty is reported and
ignored. -/
def readState (s : Scanner) (state : List UInt8) : Scanner × List Event :=
  (s, if state.isEmpty then [] else [.ignoredState state.length])

end Scanner

end NestedComment
