import NestedComment.Json.Value
import NestedComment.Options.Document

/-!
# Options from a value

The options that a value describes: the same fields as in a document, but nothing can be malformed.
-/

namespace NestedComment.Options

open Json (Misfit Value)

/-- The depth limit that a value describes. -/
def depthOfValue : Value → Except Misfit (Option UInt64)
  | .null => .ok none
  | .number (.natural n) => .ok (some n.toUInt64)
  | .number (.negative n) => .error (.outOfRange (.number (.negative n)) depthKind)
  | v => .error (.wrongKind v.found depthKind)

/-- The choice of blanks that a value describes. -/
def choiceOfValue : Value → Except Misfit Bool
  | .boolean b => .ok b
  | v => .error (.wrongKind v.found choiceKind)

/-- The members of an object after one more. -/
def addMember (m : Members) : List Char × Value → Except Misfit Members
  | (s, v) =>
    match Field.ofName? s with
    | none => .error (.unknownField s Field.names)
    | some .maxDepth => do
      if m.maxDepth.isSome then .error (.duplicateField Field.maxDepth.name)
      else .ok { m with maxDepth := some (← depthOfValue v) }
    | some .asciiWhitespaceOnly => do
      if m.asciiWhitespaceOnly.isSome then
        .error (.duplicateField Field.asciiWhitespaceOnly.name)
      else .ok { m with asciiWhitespaceOnly := some (← choiceOfValue v) }

/-- The options that a value describes. -/
def ofValue : Value → Except Misfit Options
  | .object members => do .ok (← members.foldlM addMember {}).options
  | .array [] => .ok {}
  | .array [depth] => do .ok { maxDepth := ← depthOfValue depth }
  | .array (depth :: choice :: more) => do
    let o : Options := ⟨← depthOfValue depth, ← choiceOfValue choice⟩
    if more.isEmpty then .ok o else .error (.tooLong (more.length + 2))
  | v => .error (.wrongKind v.found kind)

end NestedComment.Options
