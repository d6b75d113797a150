import NestedComment.Foreign.Host
import NestedComment.Scanner

/-!
# Entry points for foreign hosts

The five calls that a foreign host makes. A scanner keeps no state, so there is no payload to
create, all calls share the default scanner, and what a host passes may be missing: without a host
to scan on nothing is found, without a set of valid symbols the set is empty, and without a buffer
there is no state to read.
-/

namespace NestedComment.Foreign

universe u

/-- What a scanner would keep for a foreign host. There is no such thing. -/
inductive Payload

/-- The scanner that all calls share. -/
def scanner : Scanner := {}

/-- Creates what a scanner keeps. -/
def create : Option Payload := none

/-- Gives back what was created. -/
def destroy (_ : Option Payload) : Unit := ()

/-- Writes the state of the scanner, which leaves the buffer of the host alone. -/
def writeState (buffer : Option (List UInt8)) : Option (List UInt8) × UInt32 :=
  (buffer, (scanner.writeState []).2.toUInt32)

/-- Reads a state of `length` bytes back from a buffer. -/
def readState (buffer : Option (List UInt8)) (length : Nat) : List Event :=
  (scanner.readState ((buffer.getD []).take length)).2

/-- Scans for a comment. -/
def scan {σ : Type u} [BoundedHost σ] (host : Option σ) (valid : Option (List Bool)) :
    Bool × Option σ × List Event :=
  match host with
  | none => (false, none, [])
  | some h =>
    let (found, h, event) := scanner.scan ((valid.getD []).take Symbol.count) h
    (found, some h, [event])

end NestedComment.Foreign
