import NestedComment.Cursor.Basic
import NestedComment.Host.Recorded
import NestedComment.Options.Value
import NestedComment.Scanner

/-!
# Sessions

A scanner at work on one input: it can be moved, stopped at a saved place and set up anew, and every
command answers what a host would see.
-/

namespace NestedComment

/-- A scanner, the cursor it works on and a saved cursor. -/
structure Session where
  scanner : Scanner
  cursor : Cursor
  saved : Cursor

namespace Session

/-- What a session can be told to do. -/
inductive Command where
  | moveTo (offset : Nat)
  /-- Replace the scanner by one with the options that a value describes. -/
  | configure (options : Json.Value)
  | scan (valid : List Bool)
  /-- Scan, and answer with the verdict and the calls made on the cursor. -/
  | explain
  | advance (skip : Bool)
  | markEnd
  | setSymbol (s : Symbol)
  | resume
  | save
  | restore
  /-- Write the state into a given buffer. -/
  | writeState (buffer : List UInt8)
  | readState (state : List UInt8)
  /-- Ask whether the scanner is the default one. -/
  | isDefault

/-- What a session answers. -/
inductive Reply where
  | done
  | configured (o : Options)
  | refused (misfit : Json.Misfit)
  | found (result : Bool)
  | explained (verdict : Verdict) (calls : Array (Call Cursor))
  | written (count : Nat) (untouched : Bool)
  | restored (unchanged : Bool)
  | answered (result : Bool)

/-- A session at the start of an input. -/
def start (o : Options) (input : List UInt8) : Session :=
  ⟨⟨o⟩, .ofInput input, .ofInput input⟩

/-- The session after a command, the answer, and the events reported meanwhile. -/
def perform (s : Session) : Command → Session × Reply × List Event
  | .moveTo offset => ({ s with cursor := .atOffset s.cursor.input offset }, .done, [])
  | .configure v =>
    match Options.ofValue v with
    | .ok o => ({ s with scanner := ⟨o⟩ }, .configured o, [])
    | .error misfit => (s, .refused misfit, [])
  | .scan valid =>
    let (result, cursor, event) := s.scanner.scan valid s.cursor
    ({ s with cursor }, .found result, [event])
  | .explain =>
    let (verdict, record) := Scan.scan s.scanner.options (Recorded.start s.cursor)
    ({ s with cursor := record.host }, .explained verdict record.calls, [])
  | .advance skip => ({ s with cursor := s.cursor.advance skip }, .done, [])
  | .markEnd => ({ s with cursor := s.cursor.markEnd }, .done, [])
  | .setSymbol symbol => ({ s with cursor := s.cursor.setSymbol symbol }, .done, [])
  | .resume => ({ s with cursor := s.cursor.resume }, .done, [])
  | .save => ({ s with saved := s.cursor }, .done, [])
  | .restore => ({ s with cursor := s.saved }, .done, [])
  | .writeState buffer =>
    let (after, count) := s.scanner.writeState buffer
    (s, .written count (after = buffer), [])
  | .readState state =>
    let (scanner, events) := s.scanner.readState state
    ({ s with scanner }, .restored (scanner = s.scanner), events)
  | .isDefault => (s, .answered (s.scanner = {}), [])

/-- The session after each of some commands, with what it answered and reported. -/
def performAll (s : Session) : List Command → List (Session × Reply × List Event)
  | [] => []
  | c :: rest =>
    let after := s.perform c
    after :: after.1.performAll rest

end Session

end NestedComment
