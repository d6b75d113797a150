/-!
# Lenient reading of UTF-8

One code point at a time, from bytes that need not be well formed. A malformed sequence reads as
the replacement character and is as long as the longest start of a well-formed sequence that it
shares, at least one byte. `decode_cons_of_lt` says that a byte below `0x80` is read as itself,
`width_decode_pos` and `width_decode_le` bound the length of what is read.
-/

namespace NestedComment.Utf8

/-- What stands for a malformed sequence. -/
def replacement : Char := '\uFFFD'

/-- A code point and the number of bytes it was read from. -/
structure Decoded where
  char : Char
  width : Nat
  deriving DecidableEq

/-- What the first byte of a sequence of several bytes announces. -/
structure Lead where
  /-- The number of bytes that follow. -/
  count : Nat
  /-- The bits of the code point that the first byte holds. -/
  bits : Nat
  /-- The least second byte that makes no overlong form. -/
  low : UInt8
  /-- The greatest second byte that makes a code point, and no surrogate. -/
  high : UInt8

/-- The reading of a first byte from `0x80` on, if a well-formed sequence starts with it. -/
def lead? (b : UInt8) : Option Lead :=
  if b < 0xC2 then none
  else if b < 0xE0 then some ⟨1, b.toNat - 0xC0, 0x80, 0xBF⟩
  else if b = 0xE0 then some ⟨2, 0x0, 0xA0, 0xBF⟩
  else if b = 0xED then some ⟨2, 0xD, 0x80, 0x9F⟩
  else if b < 0xF0 then some ⟨2, b.toNat - 0xE0, 0x80, 0xBF⟩
  else if b = 0xF0 then some ⟨3, 0x0, 0x90, 0xBF⟩
  else if b < 0xF4 then some ⟨3, b.toNat - 0xF0, 0x80, 0xBF⟩
  else if b = 0xF4 then some ⟨3, 0x4, 0x80, 0x8F⟩
  else none

/-- Reads `count` more bytes of a sequence of which `width` bytes gave the bits `bits`. The next
byte has to lie between `low` and `high`, all later ones between `0x80` and `0xBF`. -/
def continuation (low high : UInt8) (bits width : Nat) : Nat → List UInt8 → Decoded
  | 0, _ => ⟨Char.ofNat bits, width⟩
  | _ + 1, [] => ⟨replacement, width⟩
  | count + 1, b :: rest =>
    if low ≤ b ∧ b ≤ high then
      continuation 0x80 0xBF (bits * 64 + b.toNat % 64) (width + 1) count rest
    else ⟨replacement, width⟩

/-- Reads the first code point. Of no bytes it reads a NUL of no width. -/
def decode : List UInt8 → Decoded
  | [] => ⟨'\x00', 0⟩
  | b :: rest =>
    if b < 0x80 then ⟨Char.ofNat b.toNat, 1⟩
    else match lead? b with
      | none => ⟨replacement, 1⟩
      | some lead => continuation lead.low lead.high lead.bits 1 lead.count rest

/-- A sequence is no shorter than what has been read of it. -/
theorem le_width_continuation (low high : UInt8) (bits width count : Nat) (bytes : List UInt8) :
    width ≤ (continuation low high bits width count bytes).width := by
  induction count generalizing low high bits width bytes with
  | zero => exact Nat.le_refl _
  | succ count ih =>
    cases bytes with
    | nil => exact Nat.le_refl _
    | cons b rest =>
      unfold continuation
      split
      · exact Nat.le_trans (Nat.le_succ _) (ih ..)
      · exact Nat.le_refl _

/-- A sequence is no longer than the bytes that are there. -/
theorem width_continuation_le (low high : UInt8) (bits width count : Nat) (bytes : List UInt8) :
    (continuation low high bits width count bytes).width ≤ width + bytes.length := by
  induction count generalizing low high bits width bytes with
  | zero => exact Nat.le_add_right _ _
  | succ count ih =>
    cases bytes with
    | nil => exact Nat.le_add_right _ _
    | cons b rest =>
      unfold continuation
      split
      · have h := ih 0x80 0xBF (bits * 64 + b.toNat % 64) (width + 1) rest
        simp only [List.length_cons]
        omega
      · exact Nat.le_add_right _ _

/-- At the end of the input a code point without bytes is read. -/
@[simp] theorem decode_nil : decode [] = ⟨'\x00', 0⟩ := rfl

/-- A byte below `0x80` is a code point of its own. -/
theorem decode_cons_of_lt {b : UInt8} (h : b < 0x80) (rest : List UInt8) :
    decode (b :: rest) = ⟨Char.ofNat b.toNat, 1⟩ := if_pos h

/-- A byte of at least `0x80` is the first of a longer sequence, or none of any. -/
theorem decode_cons_of_le {b : UInt8} (h : ¬b < 0x80) (rest : List UInt8) :
    decode (b :: rest) = match lead? b with
      | none => ⟨replacement, 1⟩
      | some lead => continuation lead.low lead.high lead.bits 1 lead.count rest := if_neg h

/-- Every code point is read from at least one byte. -/
theorem width_decode_pos (b : UInt8) (rest : List UInt8) : 0 < (decode (b :: rest)).width := by
  by_cases h : b < 0x80
  · rw [decode_cons_of_lt h]; exact Nat.one_pos
  · rw [decode_cons_of_le h]
    split
    · exact Nat.one_pos
    · exact le_width_continuation ..

/-- No code point is read from more bytes than there are. -/
theorem width_decode_le (bytes : List UInt8) : (decode bytes).width ≤ bytes.length := by
  cases bytes with
  | nil => exact Nat.le_refl _
  | cons b rest =>
    rw [List.length_cons]
    by_cases h : b < 0x80
    · rw [decode_cons_of_lt h]; exact Nat.le_add_left _ _
    · rw [decode_cons_of_le h]
      split
      · exact Nat.le_add_left _ _
      · next lead _ =>
        have h := width_continuation_le lead.low lead.high lead.bits 1 lead.count rest
        omega

end NestedComment.Utf8
