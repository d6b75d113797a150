import Mathlib.Data.List.Basic
import Mathlib.Tactic.Lemma
import NestedComment.Utf8

/-!
# What a first byte announces

A first byte of at least `0x80` announces how many bytes follow and between which bounds the next one
lies (`lead?_cases`). Bytes fit behind it if they keep these bounds (`Fits`). As many as it
announces, if they fit, are an encoding with it (`encode_of_fits`), by one lemma for each length of
an encoding. Fewer of them can be completed (`Fits.pad`), so they begin one (`begins_of_fits`).
-/

namespace NestedComment.Utf8

section

variable {b : UInt8}

/-- The first bytes of sequences of two. -/
lemma lead?_of_two (hlow : 0xC2 ≤ b.toNat) (hhigh : b.toNat < 0xE0) :
    lead? b = some ⟨1, b.toNat - 0xC0, 0x80, 0xBF⟩ := by
  simp only [lead?, UInt8.lt_iff_toNat_lt, UInt8.reduceToNat]
  rw [if_neg (by omega), if_pos hhigh]

/-- The first bytes of sequences of three. Two of them bound the next byte more tightly. -/
lemma lead?_of_three (hlow : 0xE0 ≤ b.toNat) (hhigh : b.toNat < 0xF0) :
    lead? b = some ⟨2, b.toNat - 0xE0, if b.toNat = 0xE0 then 0xA0 else 0x80,
      if b.toNat = 0xED then 0x9F else 0xBF⟩ := by
  simp only [lead?, UInt8.lt_iff_toNat_lt, ← UInt8.toNat_inj, UInt8.reduceToNat]
  rw [if_neg (by omega), if_neg (by omega)]
  by_cases h0 : b.toNat = 0xE0
  · simp [h0]
  · by_cases hD : b.toNat = 0xED
    · simp [hD]
    · simp [h0, hD, hhigh]

/-- The first bytes of sequences of four. Two of them bound the next byte more tightly. -/
lemma lead?_of_four (hlow : 0xF0 ≤ b.toNat) (hhigh : b.toNat < 0xF5) :
    lead? b = some ⟨3, b.toNat - 0xF0, if b.toNat = 0xF0 then 0x90 else 0x80,
      if b.toNat = 0xF4 then 0x8F else 0xBF⟩ := by
  simp only [lead?, UInt8.lt_iff_toNat_lt, ← UInt8.toNat_inj, UInt8.reduceToNat]
  rw [if_neg (by omega), if_neg (by omega), if_neg (by omega), if_neg (by omega), if_neg (by omega)]
  by_cases h0 : b.toNat = 0xF0
  · simp [h0]
  · by_cases h4 : b.toNat = 0xF4
    · simp [h4]
    · have hlt : b.toNat < 0xF4 := by omega
      simp [h0, h4, hlt]

/-- The bytes that begin no sequence. -/
lemma lead?_eq_none (h : b.toNat < 0xC2 ∨ 0xF5 ≤ b.toNat) : lead? b = none := by
  simp only [lead?, UInt8.lt_iff_toNat_lt, ← UInt8.toNat_inj, UInt8.reduceToNat]
  by_cases hlow : b.toNat < 0xC2
  · rw [if_pos hlow]
  · rw [if_neg hlow, if_neg (by omega), if_neg (by omega), if_neg (by omega), if_neg (by omega),
      if_neg (by omega), if_neg (by omega), if_neg (by omega)]

/-- All that a first byte can announce. -/
lemma lead?_cases {lead : Lead} (h : lead? b = some lead) :
    (0xC2 ≤ b.toNat ∧ b.toNat < 0xE0) ∧ lead = ⟨1, b.toNat - 0xC0, 0x80, 0xBF⟩ ∨
      (0xE0 ≤ b.toNat ∧ b.toNat < 0xF0) ∧ lead = ⟨2, b.toNat - 0xE0,
        if b.toNat = 0xE0 then 0xA0 else 0x80, if b.toNat = 0xED then 0x9F else 0xBF⟩ ∨
      (0xF0 ≤ b.toNat ∧ b.toNat < 0xF5) ∧ lead = ⟨3, b.toNat - 0xF0,
        if b.toNat = 0xF0 then 0x90 else 0x80, if b.toNat = 0xF4 then 0x8F else 0xBF⟩ := by
  by_cases hnone : b.toNat < 0xC2 ∨ 0xF5 ≤ b.toNat
  · rw [lead?_eq_none hnone] at h
    cases h
  · by_cases htwo : b.toNat < 0xE0
    · have hlow : 0xC2 ≤ b.toNat := by omega
      rw [lead?_of_two hlow htwo] at h
      exact .inl ⟨⟨hlow, htwo⟩, (Option.some.inj h).symm⟩
    · have hlow : 0xE0 ≤ b.toNat := Nat.not_lt.1 htwo
      by_cases hthree : b.toNat < 0xF0
      · rw [lead?_of_three hlow hthree] at h
        exact .inr (.inl ⟨⟨hlow, hthree⟩, (Option.some.inj h).symm⟩)
      · have hlow : 0xF0 ≤ b.toNat := Nat.not_lt.1 hthree
        have hhigh : b.toNat < 0xF5 := by omega
        rw [lead?_of_four hlow hhigh] at h
        exact .inr (.inr ⟨⟨hlow, hhigh⟩, (Option.some.inj h).symm⟩)

/-- The byte that follows a first byte is at least `0x80`. -/
lemma le_low_of_lead? {lead : Lead} (h : lead? b = some lead) : 0x80 ≤ lead.low.toNat := by
  rcases lead?_cases h with ⟨-, rfl⟩ | ⟨-, rfl⟩ | ⟨-, rfl⟩
  · exact Nat.le_refl _
  · dsimp only
    split <;> decide
  · dsimp only
    split <;> decide

end

/-- Some bytes begin the encoding of a code point. -/
def Begins (bytes : List UInt8) : Prop := ∃ c, bytes <+: String.utf8EncodeChar c

/-- Bytes that may stand behind others: the next one lies between `low` and `high`, all later ones
between `0x80` and `0xBF`. -/
def Fits (low high : UInt8) : List UInt8 → Prop
  | [] => True
  | b :: bytes => (low ≤ b ∧ b ≤ high) ∧ Fits 0x80 0xBF bytes

/-- The number that some bits mean with the low bits of the bytes behind them. -/
def number (bits : Nat) : List UInt8 → Nat
  | [] => bits
  | b :: bytes => number (bits * 64 + b.toNat % 64) bytes

section

variable {low high : UInt8} {bytes : List UInt8}

/-- What fits can be followed by more, unless it is nothing: the next byte has bounds of its own. -/
lemma Fits.pad (fits : Fits low high bytes) (hne : bytes ≠ []) (n : Nat) :
    Fits low high (bytes ++ List.replicate n 0x80) := by
  induction bytes generalizing low high with
  | nil => exact absurd rfl hne
  | cons b bytes ih =>
    refine ⟨fits.1, ?_⟩
    cases bytes with
    | nil =>
      clear fits ih hne
      induction n with
      | zero => trivial
      | succ n ih => exact ⟨by decide, ih⟩
    | cons d bytes => exact ih fits.2 (List.cons_ne_nil d bytes)

/-- Whatever fits is at least `0x80`, if the next byte is. -/
lemma Fits.le (fits : Fits low high bytes) (hlow : 0x80 ≤ low.toNat) :
    ∀ x ∈ bytes, 0x80 ≤ x.toNat := by
  induction bytes generalizing low high with
  | nil =>
    intro x hx
    cases hx
  | cons b bytes ih =>
    have hb : 0x80 ≤ b.toNat := Nat.le_trans hlow (UInt8.le_iff_toNat_le.1 fits.1.1)
    exact List.forall_mem_cons.2 ⟨hb, ih fits.2 (by decide)⟩

end

/-- A number below 256 is kept by a byte. -/
lemma toNat_ofNat {n : Nat} (hn : n < 256) : (UInt8.ofNat n).toNat = n :=
  UInt8.toNat_ofNat_of_lt hn

/-- A number that is a code point is kept by a character. -/
lemma toNat_char_ofNat {n : Nat} (h : n.isValidChar) : (Char.ofNat n).toNat = n := by
  rw [Char.ofNat, dif_pos h]
  rfl

section

variable {b x y z low high : UInt8} {taken : List UInt8}

/-- Whatever fits behind a first byte lies between `0x80` and `0xBF`. -/
lemma bounds_of_fits (fits : Fits low high (x :: taken)) (hlow : 0x80 ≤ low.toNat)
    (hhigh : high.toNat ≤ 0xBF) : 0x80 ≤ x.toNat ∧ x.toNat ≤ 0xBF :=
  ⟨Nat.le_trans hlow (UInt8.le_iff_toNat_le.1 fits.1.1),
    Nat.le_trans (UInt8.le_iff_toNat_le.1 fits.1.2) hhigh⟩

/-- A byte is made of its own number. -/
lemma ofNat_eq {n : Nat} (h : n = b.toNat) : UInt8.ofNat n = b := by
  rw [h, UInt8.ofNat_toNat]

/-- A code point below `0x80` is encoded by the byte of its number. -/
lemma encode_one {c : Char} (hc : c.toNat < 0x80) :
    String.utf8EncodeChar c = [UInt8.ofNat c.toNat] := by
  rw [String.utf8EncodeChar, Char.toNat_val, if_pos (Nat.le_of_lt_succ hc)]

/-- The code point that two bytes mean is encoded by them. -/
lemma encode_two (hlow : 0xC2 ≤ b.toNat) (hhigh : b.toNat < 0xE0) (fits : Fits 0x80 0xBF [x]) :
    String.utf8EncodeChar (Char.ofNat (number (b.toNat - 0xC0) [x])) = [b, x] := by
  have hx := bounds_of_fits fits (by decide) (by decide)
  rw [number, number, String.utf8EncodeChar, Char.toNat_val]
  rw [toNat_char_ofNat (.inl (by omega)), if_neg (by omega), if_pos (by omega)]
  rw [ofNat_eq (b := b) (by omega), ofNat_eq (b := x) (by omega)]

/-- The code point that three bytes mean is encoded by them. -/
lemma encode_three (hlow : 0xE0 ≤ b.toNat) (hhigh : b.toNat < 0xF0)
    (fits : Fits (if b.toNat = 0xE0 then 0xA0 else 0x80) (if b.toNat = 0xED then 0x9F else 0xBF)
      [x, y]) :
    String.utf8EncodeChar (Char.ofNat (number (b.toNat - 0xE0) [x, y])) = [b, x, y] := by
  have hx := bounds_of_fits fits (by split <;> decide) (by split <;> decide)
  have hy := bounds_of_fits fits.2 (by decide) (by decide)
  have hshort : b.toNat = 0xE0 → 0xA0 ≤ x.toNat := by
    intro h
    have hxlow := fits.1.1
    rwa [if_pos h] at hxlow
  have hsurrogate : b.toNat = 0xED → x.toNat ≤ 0x9F := by
    intro h
    have hxhigh := fits.1.2
    rwa [if_pos h] at hxhigh
  rw [number, number, number, String.utf8EncodeChar, Char.toNat_val, toNat_char_ofNat]
  · rw [if_neg (by omega), if_neg (by omega), if_pos (by omega)]
    rw [ofNat_eq (b := b) (by omega), ofNat_eq (b := x) (by omega), ofNat_eq (b := y) (by omega)]
  · show _ ∨ _
    omega

/-- The code point that four bytes mean is encoded by them. -/
lemma encode_four (hlow : 0xF0 ≤ b.toNat) (hhigh : b.toNat < 0xF5)
    (fits : Fits (if b.toNat = 0xF0 then 0x90 else 0x80) (if b.toNat = 0xF4 then 0x8F else 0xBF)
      [x, y, z]) :
    String.utf8EncodeChar (Char.ofNat (number (b.toNat - 0xF0) [x, y, z])) = [b, x, y, z] := by
  have hx := bounds_of_fits fits (by split <;> decide) (by split <;> decide)
  have hy := bounds_of_fits fits.2 (by decide) (by decide)
  have hz := bounds_of_fits fits.2.2 (by decide) (by decide)
  have hshort : b.toNat = 0xF0 → 0x90 ≤ x.toNat := by
    intro h
    have hxlow := fits.1.1
    rwa [if_pos h] at hxlow
  have hgreat : b.toNat = 0xF4 → x.toNat ≤ 0x8F := by
    intro h
    have hxhigh := fits.1.2
    rwa [if_pos h] at hxhigh
  rw [number, number, number, number, String.utf8EncodeChar, Char.toNat_val, toNat_char_ofNat]
  · rw [if_neg (by omega), if_neg (by omega), if_neg (by omega)]
    rw [ofNat_eq (b := b) (by omega), ofNat_eq (b := x) (by omega), ofNat_eq (b := y) (by omega),
      ofNat_eq (b := z) (by omega)]
  · show _ ∨ _
    omega

/-- As many bytes as a first byte announces, if they fit, are an encoding with it. -/
theorem encode_of_fits {lead : Lead} (hlead : lead? b = some lead)
    (fits : Fits lead.low lead.high taken) (hlength : taken.length = lead.count) :
    String.utf8EncodeChar (Char.ofNat (number lead.bits taken)) = b :: taken := by
  rcases lead?_cases hlead with ⟨⟨hlow, hhigh⟩, rfl⟩ | ⟨⟨hlow, hhigh⟩, rfl⟩ | ⟨⟨hlow, hhigh⟩, rfl⟩
  · obtain ⟨x, rfl⟩ := List.length_eq_one_iff.1 hlength
    exact encode_two hlow hhigh fits
  · obtain ⟨x, y, rfl⟩ := List.length_eq_two.1 hlength
    exact encode_three hlow hhigh fits
  · obtain ⟨x, y, z, rfl⟩ := List.length_eq_three.1 hlength
    exact encode_four hlow hhigh fits

/-- Fewer bytes than a first byte announces, if they fit, begin an encoding with it. -/
lemma begins_of_fits {lead : Lead} (hlead : lead? b = some lead)
    (fits : Fits lead.low lead.high taken) (hlength : taken.length < lead.count)
    (hne : taken ≠ []) : Begins (b :: taken) := by
  obtain ⟨n, hn⟩ := Nat.exists_eq_add_of_lt hlength
  have hwhole : (taken ++ List.replicate (n + 1) 0x80).length = lead.count := by
    rw [List.length_append, List.length_replicate, hn, Nat.add_assoc]
  have hencode := encode_of_fits hlead (fits.pad hne (n + 1)) hwhole
  exact ⟨_, List.replicate (n + 1) 0x80, hencode.symm⟩

end

end NestedComment.Utf8
