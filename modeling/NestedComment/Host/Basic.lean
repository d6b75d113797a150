import NestedComment.Symbol

/-!
# Hosts

A host is whatever owns the text that is scanned: a parser, an editor, an array of bytes. A scan
sees one code point of it at a time, and can move past that code point, mark the end of a token and
name the symbol of the token. `BoundedHost` adds that moving comes to an end, which is all that
a scan needs to end as well.
-/

namespace NestedComment

universe u v

/-- What a scan may ask of a host in the state `σ`. -/
class Host (σ : Type u) where
  /-- The code point at the cursor. At the end of the input it means nothing. -/
  lookahead : σ → Char
  /-- Whether the cursor is at the end of the input. -/
  eof : σ → Bool
  /-- Moves past the code point at the cursor; with `skip` the token starts after it. -/
  advance : (skip : Bool) → σ → σ
  /-- Marks the cursor as the end of the token. -/
  markEnd : σ → σ
  /-- Names the symbol of the token. -/
  setSymbol : Symbol → σ → σ

namespace Host

variable {σ : Type u} [Host σ]

/-- The code point at the cursor, if the input has not ended. -/
def peek (h : σ) : Option Char :=
  if eof h then none else some (lookahead h)

/-- No code point is seen exactly at the end of the input. -/
theorem peek_eq_none_iff {h : σ} : peek h = none ↔ eof h = true := by
  unfold peek; split <;> simp_all

/-- Before the end of the input the lookahead is seen. -/
theorem peek_of_not_eof {h : σ} (he : eof h = false) : peek h = some (lookahead h) := by
  simp [peek, he]

/-- Where a code point is seen, the input has not ended. -/
theorem eof_eq_false_of_peek {h : σ} {c : Char} (hc : peek h = some c) : eof h = false := by
  cases he : eof h with
  | false => rfl
  | true => rw [peek_eq_none_iff.2 he] at hc; cases hc

/-- Hosts that show the same have both come to the end of their input, or neither has. -/
theorem eof_eq_of_peek_eq {τ : Type v} [Host τ] {h : σ} {g : τ} (hpeek : peek h = peek g) :
    eof h = eof g := by
  rw [Bool.eq_iff_iff, ← peek_eq_none_iff, ← peek_eq_none_iff, hpeek]

end Host

/-- A host on which moving comes to an end. -/
class BoundedHost (σ : Type u) extends Host σ where
  /-- What moving uses up. -/
  size : σ → Nat
  size_advance_lt : ∀ (skip : Bool) (h : σ), eof h = false → size (advance skip h) < size h

end NestedComment
