import NestedComment.Decimal.Shortest
import NestedComment.Text.Quoted

/-!
# Faults of a document

What can be wrong with a JSON document that should describe something: it is malformed, it ends too
early, or it is well formed and says something that does not fit. Only the last kind carries a
message.
-/

namespace NestedComment.Json

/-- The largest number that is kept as a natural number; a larger one is kept as a floating-point
number. -/
def maxNatural : Nat := UInt64.size - 1

/-- The magnitude of the least number that is kept as a negative integer. -/
def maxNegative : Nat := UInt64.size / 2

/-- A number of a document. -/
inductive Number where
  /-- A number without a sign, a fraction or an exponent, at most `maxNatural`. -/
  | natural (n : Nat)
  /-- The number `-n`, without a fraction or an exponent, where `n` is not zero and at most
  `maxNegative`. -/
  | negative (n : Nat)
  | floating (x : Decimal.Binary64)
  deriving DecidableEq

/-- A value, as a message about its kind names it. -/
inductive Found where
  | null
  | boolean (b : Bool)
  | number (n : Number)
  | text (s : List Char)
  | sequence
  | map
  deriving DecidableEq

/-- Why a well-formed document does not fit. -/
inductive Misfit where
  /-- A member has a name that is none of the fields `fields`. -/
  | unknownField (name : List Char) (fields : List String)
  /-- A field was given twice. -/
  | duplicateField (field : String)
  /-- A value of the wrong kind stands where `expected` should stand. -/
  | wrongKind (found : Found) (expected : String)
  /-- A number of the right kind stands where the number has to be from another range. -/
  | outOfRange (found : Found) (expected : String)
  /-- A name is none of the variants `variants`. -/
  | unknownVariant (name : List Char) (variants : List String)
  /-- A sequence has more than the fields. -/
  | tooLong (length : Nat)
  deriving DecidableEq

/-- What is wrong with a document. -/
inductive Fault where
  | malformed
  | truncated
  | unfit (misfit : Misfit)
  deriving DecidableEq

/-- Two steps succeed exactly if the first does, and the second does behind it. -/
theorem bind_eq_ok {α β : Type} {x : Except Fault α} {f : α → Except Fault β} {b : β} :
    (x >>= f) = .ok b ↔ ∃ a, x = .ok a ∧ f a = .ok b := by
  cases x <;> simp [bind, Except.bind]

/-- Floating-point numbers are shown in place while the leading digit stands between the fifth place
after the point and the sixteenth before it, and with a signed exponent elsewhere. -/
def Number.layout : Decimal.Layout := ⟨-5, 15⟩

namespace Found

/-- A value in code marks. -/
def marked (s : String) : String := "`" ++ s ++ "`"

/-- The name of a value in a message. -/
def describe : Found → String
  | null => "null"
  | boolean b => "boolean " ++ marked (if b then "true" else "false")
  | number (.natural n) => "integer " ++ marked (toString n)
  | number (.negative n) => "integer " ++ marked ("-" ++ toString n)
  | number (.floating x) =>
    "floating point " ++ marked (String.ofList (Number.layout.render x))
  | text s => "string " ++ Text.Quoted.quoteText s
  | sequence => "sequence"
  | map => "map"

end Found

namespace Misfit

/-- A choice between names. -/
def oneOf : List String → String
  | [] => "nothing"
  | [a] => Found.marked a
  | [a, b] => Found.marked a ++ " or " ++ Found.marked b
  | names => "one of " ++ ", ".intercalate (names.map Found.marked)

/-- The message for a reader. -/
def message : Misfit → String
  | unknownField name fields =>
    "unknown field " ++ Found.marked (String.ofList name) ++ ", expected " ++ oneOf fields
  | duplicateField field => "duplicate field " ++ Found.marked field
  | wrongKind found expected => "invalid type: " ++ found.describe ++ ", expected " ++ expected
  | outOfRange found expected => "invalid value: " ++ found.describe ++ ", expected " ++ expected
  | unknownVariant name variants =>
    "unknown variant " ++ Found.marked (String.ofList name) ++ ", expected " ++ oneOf variants
  | tooLong length =>
    "invalid length " ++ toString length ++ ", expected fewer elements in array"

end Misfit

end NestedComment.Json
