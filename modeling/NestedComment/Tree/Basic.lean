/-!
# Trees of comments

A comment as a tree: what stands between its delimiters, piece by piece. `Piece.render` writes it
out as bytes, `Piece.describe` as a text for a reader.
-/

namespace NestedComment

/-- A piece of what stands between the delimiters of a comment. -/
inductive Piece where
  | text (bytes : List UInt8)
  /-- A byte of a delimiter on its own. -/
  | delimiter (byte : UInt8)
  /-- A comment. -/
  | nested (pieces : List Piece)

/-- A comment, as the pieces between its delimiters. -/
structure Tree where
  pieces : List Piece

namespace Piece

mutual

/-- The bytes of a piece. -/
def render : Piece → List UInt8
  | text bytes => bytes
  | delimiter byte => [byte]
  | nested pieces => 0x28 :: 0x2A :: (renderAll pieces ++ [0x2A, 0x29])

/-- The bytes of pieces in a row. -/
def renderAll : List Piece → List UInt8
  | [] => []
  | p :: rest => render p ++ renderAll rest

end

/-- Texts in a row between brackets. -/
def bracket (items : List String) : String :=
  "[" ++ ", ".intercalate items ++ "]"

mutual

/-- The text of a piece for a reader. -/
def describe : Piece → String
  | text bytes => "Text(" ++ bracket (bytes.map fun b => toString b.toNat) ++ ")"
  | delimiter byte => "Delimiter(" ++ toString byte.toNat ++ ")"
  | nested pieces => "Nested(ArbitraryComment(" ++ bracket (describeAll pieces) ++ "))"

/-- The texts of pieces for a reader. -/
def describeAll : List Piece → List String
  | [] => []
  | p :: rest => describe p :: describeAll rest

end

end Piece

namespace Tree

/-- The bytes of a comment, delimiters included. -/
def render (t : Tree) : List UInt8 :=
  Piece.render (.nested t.pieces)

/-- The text of a comment for a reader. -/
def describe (t : Tree) : String :=
  "ArbitraryComment(" ++ Piece.bracket (Piece.describeAll t.pieces) ++ ")"

end Tree

end NestedComment
