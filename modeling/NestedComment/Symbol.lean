/-!
# External symbols

The tokens that a grammar leaves to this scanner. A host names a token by its ordinal in the
grammar's list of external tokens; `Symbol.ofOrdinal?` reads such an ordinal back.
-/

namespace NestedComment

/-- A token that the grammar leaves to the scanner. -/
inductive Symbol where
  /-- A complete block comment, with the comments nested in it. -/
  | comment
  deriving DecidableEq

namespace Symbol

/-- The number of symbols, which is the length of the set of valid symbols that a host passes. -/
def count : Nat := 1

/-- The place of a symbol in the host's list of external tokens. -/
def ordinal : Symbol → UInt16
  | comment => 0

/-- The symbol with a given ordinal. -/
def ofOrdinal? (n : UInt16) : Option Symbol :=
  if n = 0 then some comment else none

/-- The name of a symbol, as messages and documents spell it. -/
def name : Symbol → String
  | comment => "Comment"

/-- A symbol is known by its ordinal. -/
@[simp] theorem ofOrdinal?_ordinal (s : Symbol) : ofOrdinal? s.ordinal = some s := by
  cases s; rfl

end Symbol

end NestedComment
