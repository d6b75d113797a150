import Mathlib.Algebra.GroupWithZero.Nat
import NestedComment.Cursor.Basic
import NestedComment.Proofs.Scan.Reading
import NestedComment.Proofs.Utf8.Decode

/-!
# The text before a cursor

The bytes from a cursor on, read leniently to their end, are the code points that a scan can see
from it, and their widths say at which offset it stands behind each of them. `position_iterate` says
that moving `n` times leads to the offset `offsetAt n`. A `Fresh` cursor is one that a host may scan
from.
-/

namespace NestedComment

namespace Utf8

/-- All code points of some bytes, each with its width. -/
def decodeAll : List UInt8 → List Decoded
  | [] => []
  | b :: rest => decode (b :: rest) :: decodeAll ((b :: rest).drop (decode (b :: rest)).width)
termination_by bytes => bytes.length
decreasing_by
  have := width_decode_pos b rest
  simp only [List.length_drop, List.length_cons]
  omega

/-- No code point is read from no bytes. -/
@[simp] lemma decodeAll_nil : decodeAll [] = [] := by
  rw [decodeAll]

/-- Some bytes make a code point, and those behind it make the others. -/
lemma decodeAll_cons (b : UInt8) (rest : List UInt8) :
    decodeAll (b :: rest) =
      decode (b :: rest) :: decodeAll ((b :: rest).drop (decode (b :: rest)).width) := by
  rw [decodeAll]

/-- The widths of all code points make up the bytes. -/
lemma sum_width_decodeAll (bytes : List UInt8) :
    ((decodeAll bytes).map Decoded.width).sum = bytes.length := by
  fun_induction decodeAll bytes with
  | case1 => rfl
  | case2 b rest ih =>
    have hle := width_decode_le (b :: rest)
    rw [List.map_cons, List.sum_cons, ih, List.length_drop]
    omega

/-- Bytes that are not empty make a code point, and those behind it make the others. -/
lemma decodeAll_of_ne_nil {bytes : List UInt8} (h : bytes ≠ []) :
    decodeAll bytes = decode bytes :: decodeAll (bytes.drop (decode bytes).width) := by
  cases bytes with
  | nil => exact absurd rfl h
  | cons b rest => exact decodeAll_cons b rest

/-- The bytes of the first `n` code points are read alike without those behind them. -/
lemma decodeAll_take (bytes : List UInt8) (n : Nat) :
    decodeAll (bytes.take (((decodeAll bytes).take n).map Decoded.width).sum) =
      (decodeAll bytes).take n := by
  fun_induction decodeAll bytes generalizing n with
  | case1 => simp
  | case2 b rest ih =>
    cases n with
    | zero => simp
    | succ n =>
      have hpos := width_decode_pos b rest
      rw [List.take_succ_cons, List.map_cons, List.sum_cons]
      have hread := decode_take (Nat.le_add_right (decode (b :: rest)).width
        (((decodeAll ((b :: rest).drop (decode (b :: rest)).width)).take n).map Decoded.width).sum)
      rw [decodeAll_of_ne_nil, hread, List.drop_take, Nat.add_sub_cancel_left, ih]
      rw [Ne, List.take_eq_nil_iff]
      rintro (h | h)
      · omega
      · cases h

end Utf8

namespace Cursor

/-- A cursor stands inside its input, before the bytes at its offset. -/
structure Placed (c : Cursor) : Prop where
  position_le : c.position ≤ c.input.length
  rest_eq : c.rest = c.input.drop c.position

/-- A cursor that a host may scan from: a new one, or one that was resumed. -/
inductive Fresh : Cursor → Prop where
  | ofInput (input : List UInt8) : Fresh (ofInput input)
  | atOffset (input : List UInt8) (offset : Nat) : Fresh (atOffset input offset)
  | resume (c : Cursor) : Fresh c.resume

/-- The offset behind the next `n` code points. -/
def offsetAt (c : Cursor) (n : Nat) : Nat :=
  c.position + (((Utf8.decodeAll c.rest).take n).map Utf8.Decoded.width).sum

instance : Readable Cursor where
  text c := (Utf8.decodeAll c.rest).map Utf8.Decoded.char
  peek_eq c := by
    obtain ⟨input, position, rest, tokenStart, tokenEnd, symbol⟩ := c
    cases rest with
    | nil => simp [Host.peek, Host.eof]
    | cons b rest => simp [Host.peek, Host.eof, Host.lookahead, ahead, Utf8.decodeAll_cons]
  text_advance skip c he := by
    obtain ⟨input, position, rest, tokenStart, tokenEnd, symbol⟩ := c
    cases rest with
    | nil => cases he
    | cons b rest => simp [Host.advance, advance, ahead, Utf8.decodeAll_cons]

/-- The text that a cursor reads is what the bytes it stands before are decoded to. -/
lemma text_eq (c : Cursor) : Readable.text c = (Utf8.decodeAll c.rest).map Utf8.Decoded.char := rfl

/-- The bytes of an opener are read as its two halves. -/
lemma text_of_opener {c : Cursor} {rest : List UInt8} (hr : c.rest = 0x28 :: 0x2A :: rest) :
    Readable.text c = '(' :: '*' :: (Utf8.decodeAll rest).map Utf8.Decoded.char := by
  rw [text_eq, hr, Utf8.decodeAll_cons, Utf8.decode_cons_of_lt (by decide)]
  show '(' :: (Utf8.decodeAll (0x2A :: rest)).map Utf8.Decoded.char = _
  rw [Utf8.decodeAll_cons, Utf8.decode_cons_of_lt (by decide)]
  rfl

/-- Behind no code points the offset is the place of the cursor. -/
@[simp] lemma offsetAt_zero (c : Cursor) : c.offsetAt 0 = c.position := by
  simp [offsetAt]

/-- Behind all code points is the end of the input. -/
lemma offsetAt_length_text (c : Cursor) :
    c.offsetAt (Readable.text c).length = c.position + c.rest.length := by
  rw [offsetAt, text_eq, List.length_map, List.take_length, Utf8.sum_width_decodeAll]

/-- To move leaves one code point less on the way to an offset. -/
lemma offsetAt_advance (skip : Bool) (c : Cursor) (n : Nat) :
    (Host.advance skip c).offsetAt n = c.offsetAt (n + 1) := by
  obtain ⟨input, position, rest, tokenStart, tokenEnd, symbol⟩ := c
  cases rest with
  | nil => simp [offsetAt, Host.advance, advance]
  | cons b rest =>
    simp [offsetAt, Host.advance, advance, ahead, Utf8.decodeAll_cons]
    omega

/-- To move `m` times leaves `m` code points less on the way to an offset. -/
lemma offsetAt_iterate (skip : Bool) (c : Cursor) (m n : Nat) :
    ((Host.advance skip)^[m] c).offsetAt n = c.offsetAt (m + n) := by
  induction m generalizing c with
  | zero => simp
  | succ m ih =>
    rw [Function.iterate_succ_apply, ih, offsetAt_advance]
    congr 1
    omega

/-- Moving `n` times leads behind the next `n` code points. -/
lemma position_iterate (skip : Bool) (c : Cursor) (n : Nat) :
    ((Host.advance skip)^[n] c).position = c.offsetAt n := by
  rw [← offsetAt_zero, offsetAt_iterate, Nat.add_zero]

/-- Before some bytes the input has not ended. -/
lemma eof_of_rest {c : Cursor} (h : c.rest ≠ []) : Host.eof c = false :=
  List.isEmpty_eq_false_iff.2 h

/-- A cursor that has not come to the end moves past the code point ahead. -/
lemma advance_eq (skip : Bool) {c : Cursor} (h : Host.eof c = false) : c.advance skip =
    { c with
      position := c.position + c.ahead.width
      rest := c.rest.drop c.ahead.width
      tokenStart := if skip then c.position + c.ahead.width else c.tokenStart } :=
  if_neg (Bool.eq_false_iff.1 h)

/-- At the end of the input there is nowhere to move. -/
lemma advance_of_eof (skip : Bool) {c : Cursor} (h : Host.eof c = true) : c.advance skip = c :=
  if_pos h

/-- At the end of the input a code point without bytes is ahead. -/
lemma ahead_of_eof {c : Cursor} (h : Host.eof c = true) : c.ahead = ⟨'\x00', 0⟩ := by
  rw [ahead, List.isEmpty_iff.1 h, Utf8.decode_nil]

/-- A code point has no width only at the end of the input. -/
lemma eof_iff_width_ahead {c : Cursor} : Host.eof c = true ↔ c.ahead.width = 0 := by
  constructor
  · intro h
    rw [ahead_of_eof h]
  · intro h
    cases hr : c.rest with
    | nil => exact List.isEmpty_iff.2 hr
    | cons b rest =>
      rw [ahead, hr] at h
      exact absurd h (Utf8.width_decode_pos b rest).ne'

/-- A cursor moves on by the width of the code point ahead. -/
lemma position_advance (skip : Bool) {c : Cursor} (h : Host.eof c = false) :
    (c.advance skip).position = c.position + c.ahead.width := by
  rw [advance_eq skip h]

/-- A code point below `0x80` is one byte. -/
lemma position_advance_of_lt (skip : Bool) {c : Cursor} {x : UInt8} {rest : List UInt8}
    (hr : c.rest = x :: rest) (hx : x < 0x80) : (c.advance skip).position = c.position + 1 := by
  have he := eof_of_rest (hr ▸ List.cons_ne_nil x rest)
  rw [position_advance skip he, ahead, hr, Utf8.decode_cons_of_lt hx]

/-- Moving changes nothing of a cursor but its place and the start of its token. -/
lemma advance_keeps (skip : Bool) (c : Cursor) : (c.advance skip).input = c.input ∧
    (c.advance skip).tokenEnd = c.tokenEnd ∧ (c.advance skip).symbol = c.symbol := by
  rw [advance]
  split
  · exact ⟨rfl, rfl, rfl⟩
  · exact ⟨rfl, rfl, rfl⟩

/-- Moving does not change the input. -/
@[simp] lemma input_advance (skip : Bool) (c : Cursor) : (c.advance skip).input = c.input :=
  (advance_keeps skip c).1

/-- Moving does not mark the end of the token. -/
@[simp] lemma tokenEnd_advance (skip : Bool) (c : Cursor) :
    (c.advance skip).tokenEnd = c.tokenEnd :=
  (advance_keeps skip c).2.1

/-- Moving does not name the symbol of the token. -/
@[simp] lemma symbol_advance (skip : Bool) (c : Cursor) : (c.advance skip).symbol = c.symbol :=
  (advance_keeps skip c).2.2

/-- Moving without skipping keeps the start of the token. -/
@[simp] lemma tokenStart_advance_false (c : Cursor) :
    (c.advance false).tokenStart = c.tokenStart := by
  rw [advance]
  split
  · rfl
  · rfl

/-- A cursor that skips takes the start of its token along. -/
lemma tokenStart_advance_true {c : Cursor} (h : c.tokenStart = c.position) :
    (c.advance true).tokenStart = (c.advance true).position := by
  rw [advance]
  split
  · exact h
  · rfl

/-- Where there is something to skip the token starts behind it, wherever it started before. -/
lemma tokenStart_advance_of_not_eof {c : Cursor} (h : Host.eof c = false) :
    (c.advance true).tokenStart = (c.advance true).position := by
  rw [advance_eq true h]
  rfl

/-- Moving does not change the input, however often. -/
lemma input_iterate (skip : Bool) (c : Cursor) (n : Nat) :
    ((Host.advance skip)^[n] c).input = c.input := by
  induction n generalizing c with
  | zero => rfl
  | succ n ih =>
    rw [Function.iterate_succ_apply, ih]
    exact input_advance skip c

/-- Moving without skipping keeps the start of the token, however often. -/
lemma tokenStart_iterate_false (c : Cursor) (n : Nat) :
    ((Host.advance false)^[n] c).tokenStart = c.tokenStart := by
  induction n generalizing c with
  | zero => rfl
  | succ n ih =>
    rw [Function.iterate_succ_apply, ih]
    exact tokenStart_advance_false c

/-- Skipping takes the start of the token along, however often. -/
lemma tokenStart_iterate_true {c : Cursor} (h : c.tokenStart = c.position) (n : Nat) :
    ((Host.advance true)^[n] c).tokenStart = c.offsetAt n := by
  rw [← position_iterate true c n]
  induction n generalizing c with
  | zero => exact h
  | succ n ih => exact ih (tokenStart_advance_true h)

/-- A cursor that reports a token stands at its marked end. -/
lemma report_eq (c : Cursor) :
    Scan.report c = { Host.advance false c with
      tokenEnd := some (Host.advance false c).position
      symbol := some .comment } := by
  obtain ⟨input, position, rest, tokenStart, tokenEnd, symbol⟩ := c
  cases rest with
  | nil => rfl
  | cons b rest => rfl

/-- Reporting a token does not change the input. -/
@[simp] lemma input_report (c : Cursor) : (Scan.report c).input = c.input := by
  rw [report_eq]
  exact input_advance false c

/-- Reporting a token keeps its start. -/
@[simp] lemma tokenStart_report (c : Cursor) : (Scan.report c).tokenStart = c.tokenStart := by
  rw [report_eq]
  exact tokenStart_advance_false c

/-- The token that is reported is the bytes from its start up to the cursor. -/
lemma token_report {c : Cursor} (h : c.tokenStart ≤ (Scan.report c).position) :
    (Scan.report c).token =
      .ok (some (span c.input c.tokenStart (Scan.report c).position)) := by
  have hstart : c.tokenStart = (Scan.report c).tokenStart := (tokenStart_report c).symm
  have hinput : c.input = (Scan.report c).input := (input_report c).symm
  rw [hinput, hstart]
  rw [hstart] at h
  rw [report_eq] at h ⊢
  exact if_pos h

/-- A fresh cursor is a new one at some offset. -/
lemma Fresh.exists_atOffset {c : Cursor} (h : c.Fresh) :
    ∃ input offset, c = Cursor.atOffset input offset := by
  cases h with
  | ofInput input => exact ⟨input, 0, rfl⟩
  | atOffset input offset => exact ⟨input, offset, rfl⟩
  | resume c => exact ⟨c.input, c.tokenEnd.getD c.position, rfl⟩

/-- A fresh cursor starts its token where it stands. -/
lemma Fresh.tokenStart_eq {c : Cursor} (h : c.Fresh) : c.tokenStart = c.position := by
  obtain ⟨input, offset, rfl⟩ := h.exists_atOffset
  rfl

/-- A new cursor stands in its input. -/
lemma placed_atOffset (input : List UInt8) (offset : Nat) : (atOffset input offset).Placed :=
  ⟨Nat.min_le_right _ _, rfl⟩

/-- The bytes before a cursor and those it stands before make up the input. -/
lemma Placed.length_eq {c : Cursor} (placed : c.Placed) :
    c.position + c.rest.length = c.input.length := by
  have hle := placed.position_le
  rw [placed.rest_eq, List.length_drop]
  omega

/-- A fresh cursor stands in its input. -/
lemma Fresh.placed {c : Cursor} (h : c.Fresh) : c.Placed := by
  obtain ⟨input, offset, rfl⟩ := h.exists_atOffset
  exact placed_atOffset input offset

/-- The bytes before a fresh cursor and those it stands before make up the input. -/
lemma Fresh.length_eq {c : Cursor} (h : c.Fresh) :
    c.position + c.rest.length = c.input.length :=
  h.placed.length_eq

end Cursor

end NestedComment
