import NestedComment.Host.Basic
import NestedComment.Utf8

/-!
# Foreign hosts

A host that speaks in machine words: its code points are signed, may be no code points at all, and
the symbol of a token is a slot for an ordinal. `Foreign` lets a scan work on such a host. What is
no code point reads as the replacement character.
-/

namespace NestedComment

universe u

/-- What a foreign host in the state `σ` offers. -/
class RawHost (σ : Type u) where
  /-- The word at the cursor, which should be a code point. -/
  lookahead : σ → Int32
  /-- Whether the cursor is at the end of the input. -/
  eof : σ → Bool
  /-- Moves past the word at the cursor; with `skip` the token starts after it. -/
  advance : (skip : Bool) → σ → σ
  /-- Marks the cursor as the end of the token. -/
  markEnd : σ → σ
  /-- Fills the slot for the ordinal of the token's symbol. -/
  setResult : UInt16 → σ → σ

/-- A foreign host on which moving comes to an end. -/
class BoundedRawHost (σ : Type u) extends RawHost σ where
  /-- What moving uses up. -/
  size : σ → Nat
  size_advance_lt : ∀ (skip : Bool) (h : σ), eof h = false → size (advance skip h) < size h

/-- A foreign host as a scan sees it. -/
structure Foreign (σ : Type u) where
  raw : σ
  deriving DecidableEq

namespace Foreign

/-- The code point that a word is, or the replacement character for one that is none. -/
def codePoint (word : Int32) : Char :=
  if 0 ≤ word.toInt ∧ word.toInt.toNat.isValidChar then Char.ofNat word.toInt.toNat
  else Utf8.replacement

variable {σ : Type u}

instance [RawHost σ] : Host (Foreign σ) where
  lookahead h := codePoint (RawHost.lookahead h.raw)
  eof h := RawHost.eof h.raw
  advance skip h := ⟨RawHost.advance skip h.raw⟩
  markEnd h := ⟨RawHost.markEnd h.raw⟩
  setSymbol s h := ⟨RawHost.setResult s.ordinal h.raw⟩

instance [BoundedRawHost σ] : BoundedHost (Foreign σ) where
  size h := BoundedRawHost.size h.raw
  size_advance_lt skip h he := BoundedRawHost.size_advance_lt skip h.raw he

end Foreign

end NestedComment
