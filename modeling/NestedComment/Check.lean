import NestedComment.Cursor.Walk
import NestedComment.Scan.Plain

/-!
# Checks of scans against the plain loop

A walk over an input, where every scan is compared with the plain loop from the same place. The
first byte of the data to check holds the options of the scans.
-/

namespace NestedComment.Check

/-- What a scan can do wrong. -/
inductive Violation where
  /-- A token was found, but its end was not marked. -/
  | unmarked
  /-- The plain loop ended elsewhere, or found nothing. -/
  | otherEnd (marked : Nat) (plain : Option Nat)
  /-- A token was found, but it has no bytes. -/
  | noToken
  /-- The bytes of the token do not lie between the delimiters of a comment. -/
  | undelimited (bytes : List UInt8)
  /-- The reported nesting is not possible with these options. -/
  | impossibleDepth (deepest : Nat)
  /-- No token was found, but the plain loop found one. -/
  | missed (plain : Nat)
  /-- No token was found, but a symbol was named. -/
  | straySymbol (s : Symbol)
  /-- An open comment was reported before the end of the input. -/
  | openBeforeEnd
  deriving DecidableEq

/-- The opener of a comment as bytes. -/
def opener : List UInt8 := [0x28, 0x2A]

/-- The closer of a comment as bytes. -/
def closer : List UInt8 := [0x2A, 0x29]

/-- The offset at which the plain loop ends a comment from an offset on. -/
def plainEnd (o : Options) (input : List UInt8) (start : Nat) : Option Nat :=
  let (found, c) := Scan.Plain.scan o (Cursor.atOffset input start)
  if found then some c.position else none

/-- Compares a scan with what the plain loop did from the same place. -/
def inspect (o : Options) (plain : Option Nat) (v : Visit) : Except Violation Unit := do
  match v.verdict with
  | .ok t =>
    match v.cursor.tokenEnd with
    | none => .error .unmarked
    | some stop =>
      if plain ≠ some stop then .error (.otherEnd stop plain)
    match v.cursor.token with
    | .ok (some bytes) =>
      if !(opener.isPrefixOf bytes && closer.isSuffixOf bytes) then .error (.undelimited bytes)
    | _ => .error .noToken
    if t.deepest = 0 || o.maxDepth.any (·.toNat < t.deepest) then
      .error (.impossibleDepth t.deepest)
  | .error reason =>
    if let some stop := plain then .error (.missed stop)
    if let some s := v.cursor.symbol then .error (.straySymbol s)
    if let .unterminated _ := reason then
      if !Host.eof v.cursor then .error .openBeforeEnd

/-- The options that the first byte of the data stands for: the choice of blanks in the lowest bit,
and above it, in three bits, no limit or one more than the limit. -/
def options (flags : UInt8) : Options where
  maxDepth :=
    let n := flags.toNat / 2 % 8
    if n = 0 then none else some (n - 1).toUInt64
  asciiWhitespaceOnly := flags.toNat % 2 = 1

/-- Checks every scan of a walk. Without a first byte there is nothing to check. -/
def run : List UInt8 → Except Violation Unit
  | [] => .ok ()
  | flags :: input =>
    let o := options flags
    (walk o input).forM fun v => inspect o (plainEnd o input v.start) v

/-- Whether all scans of a walk agree with the plain loop. -/
def passes (data : List UInt8) : Bool :=
  match run data with
  | .ok () => true
  | .error _ => false

end NestedComment.Check
