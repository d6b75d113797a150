import NestedComment.Proofs.Utf8.Decode

/-!
# Reading what was encoded

UTF-8 reads every code point back from its encoding, whatever bytes follow (`decode_encode`). There
is one lemma for each length of an encoding; they differ in what the first byte announces and in the
bytes that may follow it.
-/

namespace NestedComment.Utf8

/-- The encoding of a text. -/
def encode (cs : List Char) : List UInt8 := cs.flatMap String.utf8EncodeChar

/-- The offset behind the first `n` code points of an encoded text. -/
def offset (cs : List Char) (n : Nat) : Nat := (encode (cs.take n)).length

section

variable {low high : UInt8} {bits width count n : Nat} {rest : List UInt8}

/-- A number from `0x80` on makes no byte below `0x80`. -/
lemma not_ofNat_lt (hn : n < 256) (h : 0x80 ≤ n) : ¬UInt8.ofNat n < 0x80 := by
  rw [UInt8.lt_iff_toNat_lt, toNat_ofNat hn]
  exact Nat.not_lt.2 h

/-- Behind a first byte of a longer sequence its other bytes are read. -/
lemma decode_of_lead (hn : n < 256) (h : 0x80 ≤ n)
    (hlead : lead? (UInt8.ofNat n) = some ⟨count, bits, low, high⟩) :
    decode (UInt8.ofNat n :: rest) = continuation low high bits 1 count rest := by
  rw [decode_cons_of_le (not_ofNat_lt hn h), hlead]

/-- A byte that may follow adds its low bits. -/
lemma continuation_of_bounds (hn : n < 256) (hlow : low.toNat ≤ n) (hhigh : n ≤ high.toNat) :
    continuation low high bits width (count + 1) (UInt8.ofNat n :: rest) =
      continuation 0x80 0xBF (bits * 64 + n % 64) (width + 1) count rest := by
  rw [continuation, toNat_ofNat hn, if_pos]
  rw [UInt8.le_iff_toNat_le, UInt8.le_iff_toNat_le, toNat_ofNat hn]
  exact ⟨hlow, hhigh⟩

/-- A byte that carries six low bits adds them to the bits before it. -/
lemma continuation_of_low_bits (hn : n < 64) :
    continuation 0x80 0xBF bits width (count + 1) (UInt8.ofNat (n + 0x80) :: rest) =
      continuation 0x80 0xBF (bits * 64 + n) (width + 1) count rest := by
  have hlow : 0x80 ≤ n + 0x80 := Nat.le_add_left _ _
  have hhigh : n + 0x80 ≤ 0xBF := by omega
  rw [continuation_of_bounds (by omega) hlow hhigh]
  congr 2
  omega

end

section

variable {v : Nat} {rest : List UInt8}

/-- A code point of one byte is decoded to itself. -/
lemma decode_encode_one (h : v ≤ 0x7F) :
    decode (UInt8.ofNat v :: rest) = ⟨Char.ofNat v, 1⟩ := by
  have hbyte : (UInt8.ofNat v).toNat = v := toNat_ofNat (by omega)
  rw [decode_cons_of_lt, hbyte]
  rw [UInt8.lt_iff_toNat_lt, hbyte]
  exact Nat.lt_succ_of_le h

/-- A code point of two bytes is decoded to itself. -/
lemma decode_encode_two (hlow : 0x7F < v) (hhigh : v ≤ 0x7FF) :
    decode (UInt8.ofNat (v / 64 % 0x20 + 0xC0) :: UInt8.ofNat (v % 0x40 + 0x80) :: rest) =
      ⟨Char.ofNat v, 2⟩ := by
  have hfirst : v / 64 % 0x20 + 0xC0 < 256 := by omega
  have hlead := lead?_of_two (b := UInt8.ofNat (v / 64 % 0x20 + 0xC0))
    (by rw [toNat_ofNat hfirst]; omega) (by rw [toNat_ofNat hfirst]; omega)
  rw [toNat_ofNat hfirst] at hlead
  rw [decode_of_lead hfirst (by omega) hlead, continuation_of_low_bits (by omega), continuation]
  congr 2
  omega

/-- A code point of three bytes is decoded to itself. -/
lemma decode_encode_three (hlow : 0x7FF < v) (hhigh : v ≤ 0xFFFF)
    (hvalid : v < 0xD800 ∨ 0xDFFF < v) :
    decode (UInt8.ofNat (v / 4096 % 0x10 + 0xE0) :: UInt8.ofNat (v / 64 % 0x40 + 0x80) ::
      UInt8.ofNat (v % 0x40 + 0x80) :: rest) = ⟨Char.ofNat v, 3⟩ := by
  have hfirst : v / 4096 % 0x10 + 0xE0 < 256 := by omega
  have hlead := lead?_of_three (b := UInt8.ofNat (v / 4096 % 0x10 + 0xE0))
    (by rw [toNat_ofNat hfirst]; omega) (by rw [toNat_ofNat hfirst]; omega)
  rw [toNat_ofNat hfirst] at hlead
  rw [decode_of_lead hfirst (by omega) hlead, continuation_of_bounds (by omega),
    continuation_of_low_bits (by omega), continuation]
  · congr 2
    omega
  -- Overlong forms are what the lower bound of the second byte keeps out, surrogates the upper one.
  · split
    · show 0xA0 ≤ _
      omega
    · show 0x80 ≤ _
      omega
  · split
    · show _ ≤ 0x9F
      omega
    · show _ ≤ 0xBF
      omega

/-- A code point of four bytes is decoded to itself. -/
lemma decode_encode_four (hlow : 0xFFFF < v) (hhigh : v < 0x110000) :
    decode (UInt8.ofNat (v / 262144 % 0x08 + 0xF0) :: UInt8.ofNat (v / 4096 % 0x40 + 0x80) ::
      UInt8.ofNat (v / 64 % 0x40 + 0x80) :: UInt8.ofNat (v % 0x40 + 0x80) :: rest) =
      ⟨Char.ofNat v, 4⟩ := by
  have hfirst : v / 262144 % 0x08 + 0xF0 < 256 := by omega
  have hlead := lead?_of_four (b := UInt8.ofNat (v / 262144 % 0x08 + 0xF0))
    (by rw [toNat_ofNat hfirst]; omega) (by rw [toNat_ofNat hfirst]; omega)
  rw [toNat_ofNat hfirst] at hlead
  rw [decode_of_lead hfirst (by omega) hlead, continuation_of_bounds (by omega),
    continuation_of_low_bits (by omega), continuation_of_low_bits (by omega), continuation]
  · congr 2
    omega
  -- Overlong forms are what the lower bound of the second byte keeps out, too great numbers the
  -- upper one.
  · split
    · show 0x90 ≤ _
      omega
    · show 0x80 ≤ _
      omega
  · split
    · show _ ≤ 0x8F
      omega
    · show _ ≤ 0xBF
      omega

end

/-- A code point is read back from its encoding. -/
theorem decode_encode (c : Char) (rest : List UInt8) :
    decode (String.utf8EncodeChar c ++ rest) = ⟨c, c.utf8Size⟩ := by
  have hvalid : c.toNat < 0xD800 ∨ 0xDFFF < c.toNat ∧ c.toNat < 0x110000 := c.valid
  have hchar : Char.ofNat c.toNat = c := Char.ofNat_toNat c
  have hlength := String.length_utf8EncodeChar c
  rw [String.utf8EncodeChar] at hlength ⊢
  simp only [Char.toNat_val] at hlength ⊢
  by_cases h1 : c.toNat ≤ 0x7F
  · rw [if_pos h1] at hlength ⊢
    rw [← hlength]
    simpa [hchar] using decode_encode_one h1
  · rw [if_neg h1] at hlength ⊢
    by_cases h2 : c.toNat ≤ 0x7FF
    · rw [if_pos h2] at hlength ⊢
      rw [← hlength]
      simpa [hchar] using decode_encode_two (Nat.not_le.1 h1) h2
    · rw [if_neg h2] at hlength ⊢
      by_cases h3 : c.toNat ≤ 0xFFFF
      · rw [if_pos h3] at hlength ⊢
        rw [← hlength]
        simpa [hchar] using decode_encode_three (Nat.not_le.1 h2) h3 (by omega)
      · rw [if_neg h3] at hlength ⊢
        rw [← hlength]
        simpa [hchar] using decode_encode_four (Nat.not_le.1 h3) (by omega)

section

variable {c : Char} {cs ds : List Char} {n : Nat}

/-- A text is encoded one code point behind the other. -/
lemma encode_cons : encode (c :: cs) = String.utf8EncodeChar c ++ encode cs := List.flatMap_cons

/-- A code point is encoded by at least one byte. -/
lemma encode_cons_ne_nil : encode (c :: cs) ≠ [] := by
  rw [encode_cons]
  exact List.append_ne_nil_of_left_ne_nil String.utf8EncodeChar_ne_nil _

/-- Behind the first code point of an encoding the others are encoded. -/
lemma drop_encode_cons : (encode (c :: cs)).drop c.utf8Size = encode cs := by
  rw [encode_cons, ← String.length_utf8EncodeChar, List.drop_left]

/-- The first code point of an encoded text is decoded to itself. -/
lemma decode_encode_cons : decode (encode (c :: cs)) = ⟨c, c.utf8Size⟩ := by
  rw [encode_cons]
  exact decode_encode c _

/-- Behind no code points is the start of the text. -/
@[simp] lemma offset_zero (cs : List Char) : offset cs 0 = 0 := rfl

/-- Before all offsets behind the first code point stands its encoding. -/
lemma offset_cons_succ (c : Char) (cs : List Char) (n : Nat) :
    offset (c :: cs) (n + 1) = c.utf8Size + offset cs n := by
  rw [offset, List.take_succ_cons, encode_cons, List.length_append, String.length_utf8EncodeChar,
    offset]

/-- One code point more takes the offset on by its bytes. -/
lemma offset_succ (h : cs.drop n = c :: ds) : offset cs (n + 1) = offset cs n + c.utf8Size := by
  have hc : cs[n]? = some c := by
    rw [← List.head?_drop, h]
    rfl
  rw [offset, List.take_add_one, hc, encode, List.flatMap_append, List.length_append]
  simp [offset, encode]

end

end NestedComment.Utf8
