import NestedComment.Json.Reader
import NestedComment.Options.Basic

/-!
# Options as a document

Options are written as a JSON object with both fields, and read from an object that may leave fields
out, in any order, or from an array of the fields in order. A name that is no field, a field that is
given twice and a value that does not fit are refused as soon as they have been read.
-/

namespace NestedComment

open Json (Fault Misfit)

/-- A field of a document of options. -/
inductive Field where
  | maxDepth
  | asciiWhitespaceOnly
  deriving DecidableEq

namespace Field

/-- The name of a field in a document. -/
def name : Field → String
  | maxDepth => "max_depth"
  | asciiWhitespaceOnly => "ascii_whitespace_only"

/-- The names of all fields, in their order. -/
def names : List String := [maxDepth.name, asciiWhitespaceOnly.name]

/-- The field with a given name. -/
def ofName? (s : List Char) : Option Field :=
  if s = maxDepth.name.toList then some maxDepth
  else if s = asciiWhitespaceOnly.name.toList then some asciiWhitespaceOnly
  else none

end Field

namespace Options

/-- What a value for the depth limit has to be. -/
def depthKind : String := "usize"

/-- What a value for the choice of blanks has to be. -/
def choiceKind : String := "a boolean"

/-- What a document of options has to be. -/
def kind : String := "struct ScannerOptions"

/-- Options as a document. -/
def render (o : Options) : String :=
  let depth := match o.maxDepth with
    | none => "null"
    | some n => toString n.toNat
  let choice := if o.asciiWhitespaceOnly then "true" else "false"
  "\x7b\"" ++ Field.maxDepth.name ++ "\":" ++ depth ++ ",\"" ++ Field.asciiWhitespaceOnly.name
    ++ "\":" ++ choice ++ "\x7d"

/-- Reads a depth limit: a natural number, or null for none. -/
def readDepth (cs : List Char) : Except Fault (Option UInt64 × List Char) := do
  let (n, rest) ← Json.nullOr (Json.natural depthKind) cs
  .ok (n.map Nat.toUInt64, rest)

/-- Reads the choice of blanks. -/
def readChoice (cs : List Char) : Except Fault (Bool × List Char) :=
  Json.boolean choiceKind cs

/-- The members of an object that have been read. -/
structure Members where
  maxDepth : Option (Option UInt64) := none
  asciiWhitespaceOnly : Option Bool := none
  deriving DecidableEq

namespace Members

/-- The options given by the members, the default where there is none. -/
def options (m : Members) : Options :=
  ⟨m.maxDepth.getD none, m.asciiWhitespaceOnly.getD false⟩

/-- The number of fields that no member has given yet. -/
def missing (m : Members) : Nat :=
  (if m.maxDepth.isSome then 0 else 1) + (if m.asciiWhitespaceOnly.isSome then 0 else 1)

end Members

/-- The fault of a field that is given again. -/
def given {α : Type} (f : Field) : Except Fault α :=
  .error (.unfit (.duplicateField f.name))

/-- Reads the members of an object up to its end, after those read before. -/
def readMembers (m : Members) (first : Bool) (cs : List Char) :
    Except Fault (Members × List Char) := do
  match ← Json.memberName first cs with
  | (none, rest) => .ok (m, rest)
  | (some s, rest) =>
    match Field.ofName? s with
    | none => .error (.unfit (.unknownField s Field.names))
    | some .maxDepth =>
      if _h : m.maxDepth.isSome then given .maxDepth
      else
        let (depth, rest) ← readDepth (← Json.mark ':' rest)
        readMembers { m with maxDepth := some depth } false rest
    | some .asciiWhitespaceOnly =>
      if _h : m.asciiWhitespaceOnly.isSome then given .asciiWhitespaceOnly
      else
        let (choice, rest) ← readChoice (← Json.mark ':' rest)
        readMembers { m with asciiWhitespaceOnly := some choice } false rest
termination_by m.missing
decreasing_by
  · simp [Members.missing, _h]
  · simp [Members.missing, _h]

/-- Reads the elements of an array up to its end. -/
def readElements (cs : List Char) : Except Fault (Options × List Char) := do
  match ← Json.element true cs with
  | (false, rest) => .ok ({}, ← Json.mark ']' rest)
  | (true, rest) =>
    let (depth, rest) ← readDepth rest
    match ← Json.element false rest with
    | (false, rest) => .ok ({ maxDepth := depth }, ← Json.mark ']' rest)
    | (true, rest) =>
      let (choice, rest) ← readChoice rest
      .ok (⟨depth, choice⟩, ← Json.mark ']' rest)

/-- Reads a document of options. -/
def read (cs : List Char) : Except Fault Options := do
  let (o, rest) ← match Json.skipBlanks cs with
    | '[' :: rest => readElements rest
    | '\x7b' :: rest => do
      let (m, rest) ← readMembers {} true rest
      .ok (m.options, rest)
    | cs => Json.misplaced kind cs
  Json.finish o rest

/-- Reads options from the text of a document. -/
def parse (document : String) : Except Fault Options :=
  read document.toList

end Options

end NestedComment
