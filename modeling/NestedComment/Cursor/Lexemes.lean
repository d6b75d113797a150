import NestedComment.Cursor.Progress

/-!
# Lexemes

What a host makes of an input whose only tokens are comments: it scans, takes the token if there is
one, and otherwise takes the first code point that is no blank as a lexeme of its own.
-/

namespace NestedComment

/-- What a lexeme is. -/
inductive LexemeKind where
  | comment
  | char (c : Char)
  deriving DecidableEq

/-- A piece of an input, from one offset up to another. -/
structure Lexeme where
  start : Nat
  stop : Nat
  kind : LexemeKind
  deriving DecidableEq

namespace Lexeme

/-- The bytes of a lexeme. -/
def bytes (input : List UInt8) (l : Lexeme) : List UInt8 :=
  Cursor.span input l.start l.stop

end Lexeme

/-- The lexemes from an offset on. -/
def lexemesFrom (o : Options) (input : List UInt8) (start : Nat) : List Lexeme :=
  if _h : start < input.length then
    match _hs : Scan.scan o (Cursor.atOffset input start) with
    | (.ok _, c) => ⟨c.tokenStart, c.position, .comment⟩ :: lexemesFrom o input c.position
    | (.error _, c) =>
      let d := Cursor.atOffset input c.tokenStart
      if _hd : d.rest.isEmpty = true then []
      else
        let stop := (d.advance false).position
        ⟨d.position, stop, .char d.ahead.char⟩ :: lexemesFrom o input stop
  else []
termination_by input.length - start
decreasing_by
  · have hp := (Cursor.position_lt_of_scan _hs).1
    rw [Cursor.position_atOffset (Nat.le_of_lt _h)] at hp
    omega
  · have hle := Cursor.tokenStart_le_of_scan (Nat.le_refl _) _hs
    rw [Cursor.tokenStart_atOffset, Cursor.position_atOffset (Nat.le_of_lt _h)] at hle
    have hlt : (Cursor.atOffset input c.tokenStart).position <
        ((Cursor.atOffset input c.tokenStart).advance false).position :=
      Cursor.position_lt_advance false (Bool.eq_false_iff.2 _hd)
    have hmin : (Cursor.atOffset input c.tokenStart).position = min c.tokenStart input.length := rfl
    omega

/-- The lexemes of an input. -/
def lexemes (o : Options) (input : List UInt8) : List Lexeme :=
  lexemesFrom o input 0

end NestedComment
