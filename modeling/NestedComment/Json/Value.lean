import NestedComment.Json.Fault

/-!
# Values

A document that has been read as a whole. What a message names is its kind.
-/

namespace NestedComment.Json

/-- A value of a document. -/
inductive Value where
  | null
  | boolean (b : Bool)
  | number (n : Number)
  | text (s : List Char)
  | array (elements : List Value)
  | object (members : List (List Char × Value))
  deriving Inhabited

namespace Value

/-- The value as a message names it. -/
def found : Value → Found
  | null => .null
  | boolean b => .boolean b
  | number n => .number n
  | text s => .text s
  | array _ => .sequence
  | object _ => .map

/-- The members of an object after one more, in the order of their names. A name that is given
again takes its later value. -/
def insertMember (name : List Char) (v : Value) :
    List (List Char × Value) → List (List Char × Value)
  | [] => [(name, v)]
  | (other, w) :: rest =>
    if other = name then (name, v) :: rest
    else if other < name then (other, w) :: insertMember name v rest
    else (name, v) :: (other, w) :: rest

/-- The value of the member of an object with a given name. -/
def member? (name : String) : Value → Option Value
  | object members => (members.find? (·.1 = name.toList)).map Prod.snd
  | _ => none

end Value

end NestedComment.Json
