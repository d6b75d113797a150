import NestedComment.Host.Basic
import NestedComment.Utf8

/-!
# Cursors

A host that holds its whole input as bytes. The code point at the cursor is read leniently, and its
offsets count bytes. `Cursor.resume` does what a host does after a scan: it goes back to the marked
end of the token, if there is one, and forgets the token.
-/

namespace NestedComment

/-- A place in an input of bytes, and what is known of the token that starts before it. -/
structure Cursor where
  input : List UInt8
  position : Nat
  /-- The input from `position` on. -/
  rest : List UInt8
  tokenStart : Nat
  tokenEnd : Option Nat
  symbol : Option Symbol
  deriving DecidableEq

/-- The bounds of a token that would end before it starts. -/
structure ReversedSpan where
  start : Nat
  stop : Nat
  deriving DecidableEq

namespace Cursor

/-- The cursor at an offset, or at the end of an input that is shorter. -/
def atOffset (input : List UInt8) (offset : Nat) : Cursor :=
  let position := min offset input.length
  { input, position, rest := input.drop position, tokenStart := position, tokenEnd := none,
    symbol := none }

/-- The cursor at the start of an input. -/
def ofInput (input : List UInt8) : Cursor :=
  atOffset input 0

/-- The code point at the cursor and its width; at the end of the input a NUL of no width. -/
def ahead (c : Cursor) : Utf8.Decoded :=
  Utf8.decode c.rest

/-- Moves past the code point at the cursor; with `skip` the token starts after it. -/
def advance (skip : Bool) (c : Cursor) : Cursor :=
  if c.rest.isEmpty then c
  else
    let position := c.position + c.ahead.width
    { c with
      position
      rest := c.rest.drop c.ahead.width
      tokenStart := if skip then position else c.tokenStart }

/-- Marks the cursor as the end of the token. -/
def markEnd (c : Cursor) : Cursor :=
  { c with tokenEnd := some c.position }

/-- Names the symbol of the token. -/
def setSymbol (s : Symbol) (c : Cursor) : Cursor :=
  { c with symbol := some s }

/-- Goes back to the marked end of the token, if there is one, and forgets the token. -/
def resume (c : Cursor) : Cursor :=
  atOffset c.input (c.tokenEnd.getD c.position)

/-- The bytes of an input from one offset up to another. -/
def span (input : List UInt8) (start stop : Nat) : List UInt8 :=
  (input.drop start).take (stop - start)

/-- The bytes of the token, once its symbol is named and its end marked. A blank that was skipped
after the end was marked leaves no span to take them from. -/
def token (c : Cursor) : Except ReversedSpan (Option (List UInt8)) :=
  match c.symbol, c.tokenEnd with
  | some _, some stop =>
    if c.tokenStart ≤ stop then .ok (some (span c.input c.tokenStart stop))
    else .error ⟨c.tokenStart, stop⟩
  | _, _ => .ok none

/-- Before the end of the input the code point ahead has at least one byte. -/
theorem length_drop_ahead_lt {c : Cursor} (h : c.rest.isEmpty = false) :
    (c.rest.drop c.ahead.width).length < c.rest.length := by
  unfold ahead
  cases hr : c.rest with
  | nil => simp [hr] at h
  | cons b rest =>
    have := Utf8.width_decode_pos b rest
    simp only [List.length_drop, List.length_cons]
    omega

instance : BoundedHost Cursor where
  lookahead c := c.ahead.char
  eof c := c.rest.isEmpty
  advance := advance
  markEnd := markEnd
  setSymbol := setSymbol
  size c := c.rest.length
  size_advance_lt skip c h := by
    unfold advance
    simpa [h] using length_drop_ahead_lt h

end Cursor

end NestedComment
