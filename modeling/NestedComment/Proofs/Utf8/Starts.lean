import NestedComment.Proofs.Utf8.Encode

/-!
# Starts of encodings

Reading takes as many bytes as begin the encoding of a code point, and at least one. Several bytes
are read together only if they begin an encoding (`begins_take_decode`), and any more of them do not
(`not_begins_take`). If the bytes that are taken are an encoding they are read as its code point, and
as the replacement character if they are none (`char_decode_of_encoded`,
`char_decode_of_malformed`).
-/

namespace NestedComment.Utf8

section

variable {bytes : List UInt8} {c : Char} {n : Nat}

/-- An encoding is not read as anything else. -/
lemma char_decode_of_encoded (h : bytes.take (decode bytes).width = String.utf8EncodeChar c) :
    (decode bytes).char = c := by
  have hread := decode_encode c []
  rw [List.append_nil, ← h, decode_take (Nat.le_refl _)] at hread
  exact congrArg Decoded.char hread

/-- What is read are the bytes of an encoding, or else the replacement character. -/
lemma char_decode_of_malformed (hne : bytes ≠ [])
    (h : ∀ c, bytes.take (decode bytes).width ≠ String.utf8EncodeChar c) :
    (decode bytes).char = replacement := by
  cases bytes with
  | nil => exact absurd rfl hne
  | cons b bytes =>
    obtain ⟨taken, rest, rfl, hwidth, -, hread⟩ := decode_cases b bytes
    rcases hread with hread | ⟨hread, -⟩
    · rw [hwidth, List.take_succ_cons, List.take_left] at h
      exact absurd hread.symm (h _)
    · exact hread

/-- Bytes that are read together begin an encoding. -/
lemma begins_take_decode (h : 1 < (decode bytes).width) :
    Begins (bytes.take (decode bytes).width) := by
  cases bytes with
  | nil => exact absurd h (by decide)
  | cons b bytes =>
    obtain ⟨taken, rest, rfl, hwidth, -, hread⟩ := decode_cases b bytes
    rw [hwidth, List.take_succ_cons, List.take_left]
    rcases hread with hread | ⟨-, rfl | begins⟩
    · exact ⟨_, [], by rw [hread, List.append_nil]⟩
    · rw [hwidth] at h
      exact absurd h (Nat.lt_irrefl 1)
    · exact begins

/-- No more bytes than are read begin an encoding. -/
lemma not_begins_take (hlt : (decode bytes).width < n) (hle : n ≤ bytes.length) :
    ¬Begins (bytes.take n) := by
  rintro ⟨c, more, hmore⟩
  -- The encoding would be read as a whole, but reading stops where it stops in `bytes`.
  have hread := decode_encode c []
  have hlength : (bytes.take n).length = n := List.length_take_of_le hle
  have hstops : decode (bytes.take n) = decode bytes := decode_take (Nat.le_of_lt hlt)
  rw [List.append_nil, ← hmore, decode_append_of_lt, hstops] at hread
  · have hwidth : (decode bytes).width = c.utf8Size := congrArg Decoded.width hread
    have hwhole := congrArg List.length hmore
    rw [List.length_append, hlength, String.length_utf8EncodeChar, ← hwidth] at hwhole
    omega
  · rw [hstops, hlength]
    exact hlt

/-- A sequence is left before a byte that does not fit: here before an ASCII byte, at the end of the
input, and behind the first byte of a surrogate and of an overlong form. -/
example : decode [0xE2, 0x80, 0x41] = ⟨replacement, 2⟩ ∧
    decode [0xF0, 0x9F, 0x98] = ⟨replacement, 3⟩ ∧
    decode [0xED, 0xA0, 0x80] = ⟨replacement, 1⟩ ∧ decode [0xC0, 0x80] = ⟨replacement, 1⟩ := by
  decide

/-- No encoding has more than four bytes, so no more are read. -/
lemma width_decode_le_four (bytes : List UInt8) : (decode bytes).width ≤ 4 := by
  by_cases h : 1 < (decode bytes).width
  · obtain ⟨c, hbegins⟩ := begins_take_decode h
    have hlength := hbegins.length_le
    rw [List.length_take_of_le (width_decode_le bytes), String.length_utf8EncodeChar] at hlength
    exact Nat.le_trans hlength c.utf8Size_le_four
  · omega

/-- Bytes that are read together are at least `0x80`. -/
lemma le_of_mem_take {x : UInt8} (h : 1 < (decode bytes).width)
    (hx : x ∈ bytes.take (decode bytes).width) : 0x80 ≤ x := by
  cases bytes with
  | nil => exact absurd h (by decide)
  | cons b bytes =>
    by_cases hb : b < 0x80
    · rw [decode_cons_of_lt hb] at h
      exact absurd h (Nat.lt_irrefl 1)
    · exact UInt8.le_iff_toNat_le.2 (le_of_mem_take_decode hb hx)

end

end NestedComment.Utf8
