import NestedComment.Cursor.Basic

/-!
# Cursors that keep their lookahead

A cursor may keep the code point before it, with its width, and read it anew only where it starts,
moves or is resumed. `CachedCursor` is such a cursor. What it keeps is out of date if an operation
forgets to read, and reading takes the bytes from the offset of the cursor on, which has to lie in
the input. An operation that reads outside the input fails, and a cursor that has failed is `none`
from then on.
-/

namespace NestedComment

/-- A place in an input of bytes, the code point that was read last, and what is known of the token
that starts before the place. -/
structure CachedCursor where
  input : List UInt8
  position : Nat
  /-- The code point that was read last, with its width. -/
  ahead : Utf8.Decoded
  tokenStart : Nat
  tokenEnd : Option Nat
  symbol : Option Symbol
  deriving DecidableEq

namespace CachedCursor

/-- The bytes from the cursor on, if it stands in its input. -/
def remaining (c : CachedCursor) : Option (List UInt8) :=
  if c.position ≤ c.input.length then some (c.input.drop c.position) else none

/-- Reads the code point at the cursor. -/
def refresh (c : CachedCursor) : Option CachedCursor :=
  c.remaining.map fun bytes => { c with ahead := Utf8.decode bytes }

/-- Forgets the token and starts another one at the cursor. -/
def restart (c : CachedCursor) : Option CachedCursor :=
  refresh { c with tokenStart := c.position, tokenEnd := none, symbol := none }

/-- The cursor at an offset, or at the end of an input that is shorter. -/
def atOffset (input : List UInt8) (offset : Nat) : Option CachedCursor :=
  restart { input, position := min offset input.length, ahead := ⟨'\x00', 0⟩, tokenStart := 0,
            tokenEnd := none, symbol := none }

/-- No byte is left at the cursor. -/
def isAtEnd (c : CachedCursor) : Bool :=
  decide (c.input.length ≤ c.position)

/-- Moves past the code point that was read last, by the width it had, and reads the next one; with
`skip` the token starts there. -/
def advance (skip : Bool) (c : CachedCursor) : Option CachedCursor :=
  if c.isAtEnd then some c
  else
    let position := c.position + c.ahead.width
    refresh { c with position, tokenStart := if skip then position else c.tokenStart }

/-- Marks the cursor as the end of the token. -/
def markEnd (c : CachedCursor) : CachedCursor :=
  { c with tokenEnd := some c.position }

/-- Names the symbol of the token. -/
def setSymbol (s : Symbol) (c : CachedCursor) : CachedCursor :=
  { c with symbol := some s }

/-- Goes back to the marked end of the token, if there is one, and forgets the token. -/
def resume (c : CachedCursor) : Option CachedCursor :=
  restart { c with position := c.tokenEnd.getD c.position }

/-- A cursor that has failed stays so under every call. -/
instance : Host (Option CachedCursor) where
  lookahead x := x.elim '\x00' fun c => c.ahead.char
  eof x := x.elim true isAtEnd
  advance skip x := x.bind (advance skip)
  markEnd x := x.map markEnd
  setSymbol s x := x.map (setSymbol s)

end CachedCursor

end NestedComment
