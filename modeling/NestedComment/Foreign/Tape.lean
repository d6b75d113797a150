import NestedComment.Foreign.Host

/-!
# Tapes

A foreign host that serves words from a list. It counts words where a cursor counts bytes, and it
may say that its input has ended at places where words follow.
-/

namespace NestedComment

/-- A place on a list of words, and what is known of the token that starts before it. -/
structure Tape where
  input : List Int32
  /-- The word served past the end of the input. -/
  beyond : Int32
  /-- The positions at which the input is said to have ended although words follow. -/
  stops : List Nat
  position : Nat
  /-- The input from `position` on. -/
  rest : List Int32
  tokenStart : Nat
  tokenEnd : Option Nat
  /-- The slot for the ordinal of the token's symbol. -/
  result : UInt16
  deriving DecidableEq

namespace Tape

/-- The ordinal in the slot while no symbol is named. -/
def noResult : UInt16 := 65535

/-- A tape at its start. -/
def start (input : List Int32) (beyond : Int32) (stops : List Nat) (result : UInt16) : Tape :=
  { input, beyond, stops, position := 0, rest := input, tokenStart := 0, tokenEnd := none, result }

/-- The word at the position. -/
def lookahead (t : Tape) : Int32 :=
  t.rest.head?.getD t.beyond

/-- Whether the input has ended, or is said to have. -/
def eof (t : Tape) : Bool :=
  t.rest.isEmpty || t.stops.contains t.position

/-- Moves past the word at the position, unless the input has ended; with `skip` the token starts at
the place that is reached. -/
def advance (skip : Bool) (t : Tape) : Tape :=
  let position := if t.rest.isEmpty then t.position else t.position + 1
  { t with
    position
    rest := t.rest.tail
    tokenStart := if skip then position else t.tokenStart }

/-- Marks the position as the end of the token. -/
def markEnd (t : Tape) : Tape :=
  { t with tokenEnd := some t.position }

/-- Goes back to the marked end of the token, if there is one, and forgets the token. -/
def resume (t : Tape) : Tape :=
  let position := t.tokenEnd.getD t.position
  { t with
    position, rest := t.input.drop position, tokenStart := position, tokenEnd := none
    result := noResult }

instance : BoundedRawHost Tape where
  lookahead := lookahead
  eof := eof
  advance := advance
  markEnd := markEnd
  setResult ordinal t := { t with result := ordinal }
  size t := t.rest.length
  size_advance_lt skip t h := by
    cases hr : t.rest with
    | nil => simp [eof, hr] at h
    | cons w rest => simp [advance, hr]

end Tape

end NestedComment
