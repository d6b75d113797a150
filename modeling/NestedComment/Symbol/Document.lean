import NestedComment.Json.Reader
import NestedComment.Symbol

/-!
# Symbols as documents

A symbol is written as the text of its name. It is read from that text, or from an object whose only
member has that name and the value null.
-/

namespace NestedComment.Symbol

open Json (Fault)

/-- A symbol as a document. -/
def render (s : Symbol) : String :=
  "\"" ++ s.name ++ "\""

/-- The symbol with a given name. -/
def ofName (s : List Char) : Except Fault Symbol :=
  if s = comment.name.toList then .ok comment
  else .error (.unfit (.unknownVariant s [comment.name]))

/-- Reads a null, named `expected` if something else stands there. -/
def readNull (expected : String) (cs : List Char) : Except Fault (List Char) :=
  match Json.skipBlanks cs with
  | 'n' :: rest => Json.word ['u', 'l', 'l'] rest
  | cs => Json.misplaced expected cs

/-- Reads the only member of an object and the end of the object. -/
def readMember (cs : List Char) : Except Fault (Symbol × List Char) := do
  let (name, rest) ← Json.quoted cs
  let s ← ofName name
  let rest ← readNull "unit" (← Json.mark ':' rest)
  .ok (s, ← Json.mark '\x7d' rest)

/-- Reads a document that is a symbol. -/
def read (cs : List Char) : Except Fault Symbol := do
  match Json.skipBlanks cs with
  | [] => .error .truncated
  | c :: rest =>
    if c = '"' then
      let (name, rest) ← Json.Text.read rest
      Json.finish (← ofName name) rest
    else if c = '\x7b' then
      let (s, rest) ← readMember rest
      Json.finish s rest
    else .error .malformed

/-- Reads a symbol from the text of a document. -/
def parse (document : String) : Except Fault Symbol :=
  read document.toList

end NestedComment.Symbol
