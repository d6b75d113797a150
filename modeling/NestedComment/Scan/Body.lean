import NestedComment.Abstention

/-!
# The body of a comment

The machine that runs from the outer opener to its closer. It looks at one code point at a time and
either consumes it or holds it for its next state. Holding is what lets delimiters overlap: in
`**)` the second star is still free to start the closer, in `((*` the second parenthesis is free to
start an opener, and the star of an inner opener is free to start a closer, so that `(*)` opens a
level and closes it again.
-/

namespace NestedComment.Scan

/-- What the code point before the cursor may be the first half of. -/
inductive Half where
  | neither
  /-- A star, the first half of a closer. -/
  | closer
  /-- An opening parenthesis, the first half of an opener. -/
  | opener
  deriving DecidableEq

/-- The state inside a comment. -/
structure Body where
  half : Half
  /-- The comments that are open. -/
  depth : Nat
  /-- The most comments that have been open at once. -/
  deepest : Nat
  deriving DecidableEq

/-- What a machine does with the code point at the cursor. -/
inductive Reaction (α : Type) where
  /-- Move past the code point and go on. -/
  | consume (skip : Bool) (next : α)
  /-- Go on with the same code point. -/
  | hold (next : α)
  /-- The code point closes the outermost comment. -/
  | accept (final : Body)
  /-- There is no token here. -/
  | abstain (reason : Abstention)

/-- The same reaction in a machine that holds this one's states. -/
def Reaction.map {α β : Type} (f : α → β) : Reaction α → Reaction β
  | .consume skip next => .consume skip (f next)
  | .hold next => .hold (f next)
  | .accept final => .accept final
  | .abstain reason => .abstain reason

namespace Body

/-- The state before any comment is open. -/
def outside : Body := ⟨.neither, 0, 0⟩

/-- The state after one more comment was opened. -/
def deeper (b : Body) : Body :=
  ⟨.neither, b.depth + 1, max b.deepest (b.depth + 1)⟩

/-- The state after the innermost comment was closed. -/
def shallower (b : Body) : Body :=
  ⟨.neither, b.depth - 1, b.deepest⟩

/-- Opens one more comment, unless as many as allowed are open. -/
def enter (limit : Option UInt64) (b : Body) : Reaction Body :=
  match limit with
  | none => .hold b.deeper
  | some l => if l.toNat ≤ b.depth then .abstain (.depthLimit l) else .hold b.deeper

/-- Closes the innermost comment. -/
def leave (b : Body) : Reaction Body :=
  if b.shallower.depth = 0 then .accept b.shallower else .hold b.shallower

/-- The half of a delimiter that a code point may be. -/
def halfOf (c : Char) : Half :=
  if c = '*' then .closer else if c = '(' then .opener else .neither

/-- What the machine does with a code point at the cursor. -/
def see (limit : Option UInt64) (b : Body) (c : Char) : Reaction Body :=
  match b.half with
  | .neither => .consume false { b with half := halfOf c }
  | .closer => if c = ')' then b.leave else .hold { b with half := .neither }
  | .opener => if c = '*' then b.enter limit else .hold { b with half := .neither }

/-- What the machine does with the code point at the cursor, or with the end of the input. -/
def react (limit : Option UInt64) (b : Body) : Option Char → Reaction Body
  | none => .abstain (.unterminated b.depth)
  | some c => b.see limit c

end Body

end NestedComment.Scan
