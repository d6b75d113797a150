import NestedComment.Foreign.Entry
import NestedComment.Foreign.Tape
import NestedComment.Host.Recorded

/-!
# Sessions of a foreign host

A foreign host at work on a tape: it makes the five calls, and goes on after a token by itself.
-/

namespace NestedComment.Foreign

/-- What a foreign host does. -/
inductive Command where
  | create
  | destroy
  | writeState (buffer : Option (List UInt8))
  | readState (buffer : Option (List UInt8)) (length : Nat)
  /-- Scan, or ask for a scan without passing a host. -/
  | scan (valid : Option (List Bool)) (withHost : Bool)
  | resume

/-- What a foreign host is answered. -/
inductive Reply where
  | done
  | created (payload : Option Payload)
  | written (count : UInt32) (untouched : Bool)
  | found (result : Bool)

/-- The state of a tape after a command, the answer, the events reported meanwhile, and the calls
made on the tape. -/
structure Response where
  tape : Tape
  reply : Reply
  events : List Event
  calls : Array (Call (Foreign Tape))

/-- What comes of a command. -/
def perform (t : Tape) : Command → Response
  | .create => ⟨t, .created create, [], #[]⟩
  | .destroy => match destroy create with
    | () => ⟨t, .done, [], #[]⟩
  | .writeState buffer =>
    let (after, count) := writeState buffer
    ⟨t, .written count (after = buffer), [], #[]⟩
  | .readState buffer length => ⟨t, .done, readState buffer length, #[]⟩
  | .scan valid withHost =>
    let host := if withHost then some (Recorded.start (Foreign.mk t)) else none
    match scan host valid with
    | (found, none, events) => ⟨t, .found found, events, #[]⟩
    | (found, some r, events) => ⟨r.host.raw, .found found, events, r.calls⟩
  | .resume => ⟨t.resume, .done, [], #[]⟩

/-- What comes of each of some commands. -/
def performAll (t : Tape) : List Command → List Response
  | [] => []
  | c :: rest =>
    let r := perform t c
    r :: performAll r.tape rest

end NestedComment.Foreign
