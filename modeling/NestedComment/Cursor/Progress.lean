import NestedComment.Cursor.Basic
import NestedComment.Scan.Run

/-!
# Scans move a cursor forward

A scan never moves a cursor back. One that finds a token leaves the cursor at the marked end of the
token, behind where it started, so a host that goes on from there comes to the end of its input.
-/

namespace NestedComment.Cursor

/-- A cursor never moves back. -/
theorem position_le_advance (skip : Bool) (c : Cursor) :
    c.position ≤ (c.advance skip).position := by
  unfold advance; split
  · exact Nat.le_refl _
  · exact Nat.le_add_right _ _

/-- A cursor that has not come to the end moves on. -/
theorem position_lt_advance (skip : Bool) {c : Cursor} (h : c.rest.isEmpty = false) :
    c.position < (c.advance skip).position := by
  unfold advance
  simp only [h, Bool.false_eq_true, if_false]
  cases hr : c.rest with
  | nil => simp [hr] at h
  | cons b rest =>
    have := Utf8.width_decode_pos b rest
    simp only [ahead, hr]
    omega

/-- The start of the token moves on with the cursor, and not beyond it. -/
theorem tokenStart_le_advance (skip : Bool) {c : Cursor} (h : c.tokenStart ≤ c.position) :
    c.tokenStart ≤ (c.advance skip).tokenStart ∧
      (c.advance skip).tokenStart ≤ (c.advance skip).position := by
  unfold advance; split
  · exact ⟨Nat.le_refl _, h⟩
  · cases skip <;> simp only [Bool.false_eq_true, if_true, if_false] <;> omega

/-- A new cursor starts its token where it stands. -/
@[simp] theorem tokenStart_atOffset (input : List UInt8) (offset : Nat) :
    (atOffset input offset).tokenStart = (atOffset input offset).position := rfl

/-- A new cursor stands at its offset, if that lies in the input. -/
theorem position_atOffset {input : List UInt8} {offset : Nat} (h : offset ≤ input.length) :
    (atOffset input offset).position = offset := Nat.min_eq_left h

/-- A scan that finds a token leaves the cursor at the marked end of the token, further on. -/
theorem position_lt_of_scan {o : Options} {c d : Cursor} {t : Token}
    (h : Scan.scan o c = (.ok t, d)) : c.position < d.position ∧ d.tokenEnd = some d.position := by
  rcases Scan.run_preserves (P := fun d => c.position ≤ d.position)
    (fun skip d _ hd => Nat.le_trans hd (position_le_advance skip d)) .leading c (Nat.le_refl _)
    with ⟨reason, he, -⟩ | ⟨t', g, hr, hc, hg⟩
  · rw [show Scan.run o .leading c = (.ok t, d) from h] at he; cases he
  · rw [show Scan.run o .leading c = (.ok t, d) from h] at hr
    cases hr
    have he : (g.setSymbol .comment).rest.isEmpty = false := Host.eof_eq_false_of_peek hc
    exact ⟨Nat.lt_of_le_of_lt hg (position_lt_advance false he), rfl⟩

/-- A scan never moves the start of the token back. -/
theorem tokenStart_le_of_scan {o : Options} {c d : Cursor} {reason : Abstention}
    (hc : c.tokenStart ≤ c.position) (h : Scan.scan o c = (.error reason, d)) :
    c.tokenStart ≤ d.tokenStart := by
  rcases Scan.run_preserves
    (P := fun d => c.tokenStart ≤ d.tokenStart ∧ d.tokenStart ≤ d.position)
    (fun skip d _ hd => ⟨Nat.le_trans hd.1 (tokenStart_le_advance skip hd.2).1,
      (tokenStart_le_advance skip hd.2).2⟩) .leading c ⟨Nat.le_refl _, hc⟩
    with ⟨reason', -, hd⟩ | ⟨t', g, hr, -⟩
  · rw [show Scan.run o .leading c = (.error reason, d) from h] at hd; exact hd.1
  · rw [show Scan.run o .leading c = (.error reason, d) from h] at hr; cases hr

end NestedComment.Cursor
