import NestedComment.Json.Reader
import NestedComment.Json.Value

/-!
# Values as documents

A document is read into a value part by part. Each part leaves less of the text than it found, which
`Reading` records, so that reading comes to an end.
-/

namespace NestedComment.Json

/-- What has been read from the start of a text. -/
structure Reading (α : Type) (cs : List Char) where
  value : α
  rest : List Char
  shorter : rest.length < cs.length

namespace Value

mutual

/-- Reads a value. -/
def read (cs : List Char) : Except Fault (Reading Value cs) :=
  match _h : Json.found (skipBlanks cs) with
  | .error e => .error e
  | .ok (f, rest) =>
    have shorter := Nat.lt_of_lt_of_le (length_found _h) (length_skipBlanks cs)
    match f with
    | .null => .ok ⟨null, rest, shorter⟩
    | .boolean b => .ok ⟨boolean b, rest, shorter⟩
    | .number n => .ok ⟨number n, rest, shorter⟩
    | .text s => .ok ⟨text s, rest, shorter⟩
    | .sequence => do
      let ⟨vs, rest, h⟩ ← readElements true rest
      .ok ⟨array vs, rest, Nat.lt_trans h shorter⟩
    | .map => do
      let ⟨ms, rest, h⟩ ← readMembers [] rest
      .ok ⟨object ms, rest, Nat.lt_trans h shorter⟩
termination_by 2 * cs.length

/-- Reads the elements of a sequence up to its end. -/
def readElements (first : Bool) (cs : List Char) : Except Fault (Reading (List Value) cs) :=
  match h : element first cs with
  | .error e => .error e
  | .ok (false, rest) =>
    match h' : mark ']' rest with
    | .error e => .error e
    | .ok rest' => .ok ⟨[], rest', Nat.lt_of_lt_of_le (length_mark h') (length_element h)⟩
  | .ok (true, rest) => do
    have := length_element h
    let ⟨v, rest, _⟩ ← read rest
    let ⟨vs, rest, _⟩ ← readElements false rest
    .ok ⟨v :: vs, rest, by omega⟩
termination_by 2 * cs.length + 1

/-- Reads the members of an object up to its end, after those read before. -/
def readMembers (members : List (List Char × Value)) (cs : List Char) :
    Except Fault (Reading (List (List Char × Value)) cs) :=
  match h : memberName members.isEmpty cs with
  | .error e => .error e
  | .ok (none, rest) => .ok ⟨members, rest, length_memberName h⟩
  | .ok (some name, rest) =>
    match h' : mark ':' rest with
    | .error e => .error e
    | .ok rest => do
      have := length_memberName h
      have := length_mark h'
      let ⟨v, rest, _⟩ ← read rest
      let ⟨ms, rest, _⟩ ← readMembers (insertMember name v members) rest
      .ok ⟨ms, rest, by omega⟩
termination_by 2 * cs.length + 1

end

/-- Reads a value from the text of a document. -/
def parse (document : String) : Except Fault Value := do
  let ⟨v, rest, _⟩ ← read document.toList
  finish v rest

end Value

end NestedComment.Json
