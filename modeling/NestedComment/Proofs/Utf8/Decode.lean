import NestedComment.Proofs.Utf8.Lead

/-!
# What reading takes

Reading takes a first byte and the bytes behind it that fit. `decode_cases` says all that can come of
it: they are an encoding, and read as what it encodes, or none, and read as the replacement
character. So no byte below `0x80` is read as a part of something longer (`le_of_mem_take_decode`),
and what is read from a byte of at least `0x80` is no code point below it (`char_decode_ne`). The
bytes that are read together are read alike without those behind them (`decode_take`), and whatever
is behind them if some are left (`decode_append_of_lt`). So nothing is read across a border on one
side of which stands a byte below `0x80` (`decode_append`).
-/

namespace NestedComment.Utf8

/-- The bytes that are taken fit. They are as many as were announced and give a number, or they are
too few. -/
lemma continuation_cases (low high : UInt8) (bits width count : Nat) (bytes : List UInt8) :
    ∃ taken rest, bytes = taken ++ rest ∧ Fits low high taken ∧
      (taken.length = count ∧ continuation low high bits width count bytes =
          ⟨Char.ofNat (number bits taken), width + taken.length⟩ ∨
        taken.length < count ∧ continuation low high bits width count bytes =
          ⟨replacement, width + taken.length⟩) := by
  induction count generalizing low high bits width bytes with
  | zero => exact ⟨[], bytes, rfl, trivial, .inl ⟨rfl, rfl⟩⟩
  | succ count ih =>
    cases bytes with
    | nil => exact ⟨[], [], rfl, trivial, .inr ⟨Nat.succ_pos count, rfl⟩⟩
    | cons b bytes =>
      rw [continuation]
      split
      · next hb =>
        obtain ⟨taken, rest, rfl, fits, hread⟩ :=
          ih 0x80 0xBF (bits * 64 + b.toNat % 64) (width + 1) bytes
        have hwidth : width + 1 + taken.length = width + (b :: taken).length := by
          rw [List.length_cons, Nat.add_assoc, Nat.add_comm 1]
        rw [hwidth] at hread
        refine ⟨b :: taken, rest, rfl, ⟨hb, fits⟩, ?_⟩
        rcases hread with ⟨hlength, he⟩ | ⟨hlength, he⟩
        · exact .inl ⟨congrArg (· + 1) hlength, he⟩
        · exact .inr ⟨Nat.succ_lt_succ hlength, he⟩
      · exact ⟨[], b :: bytes, rfl, trivial, .inr ⟨Nat.succ_pos count, rfl⟩⟩

section

variable {b : UInt8} {rest : List UInt8}

/-- A first byte is read with the bytes that are taken behind it. They are an encoding, and read as
what it encodes, or none, and read as the replacement character. -/
theorem decode_cases (b : UInt8) (bytes : List UInt8) :
    ∃ taken rest, bytes = taken ++ rest ∧ (decode (b :: bytes)).width = taken.length + 1 ∧
      (∀ x ∈ taken, 0x80 ≤ x.toNat) ∧
      (String.utf8EncodeChar (decode (b :: bytes)).char = b :: taken ∨
        (decode (b :: bytes)).char = replacement ∧ (taken = [] ∨ Begins (b :: taken))) := by
  by_cases hb : b < 0x80
  · have hlt : b.toNat < 0x80 := UInt8.lt_iff_toNat_lt.1 hb
    have hchar : (Char.ofNat b.toNat).toNat = b.toNat := toNat_char_ofNat (.inl (by omega))
    have hencode : String.utf8EncodeChar (Char.ofNat b.toNat) = [b] := by
      rw [encode_one (by rwa [hchar]), hchar, UInt8.ofNat_toNat]
    rw [decode_cons_of_lt hb]
    exact ⟨[], bytes, rfl, rfl, List.forall_mem_nil _, .inl hencode⟩
  · rw [decode_cons_of_le hb]
    cases hlead : lead? b with
    | none => exact ⟨[], bytes, rfl, rfl, List.forall_mem_nil _, .inr ⟨rfl, .inl rfl⟩⟩
    | some lead =>
      obtain ⟨taken, rest, rfl, fits, hread⟩ :=
        continuation_cases lead.low lead.high lead.bits 1 lead.count bytes
      refine ⟨taken, rest, rfl, ?_⟩
      rcases hread with ⟨hlength, he⟩ | ⟨hlength, he⟩
      · simp only [he]
        exact ⟨Nat.add_comm 1 _, fits.le (le_low_of_lead? hlead),
          .inl (encode_of_fits hlead fits hlength)⟩
      · simp only [he]
        refine ⟨Nat.add_comm 1 _, fits.le (le_low_of_lead? hlead), .inr ⟨trivial, ?_⟩⟩
        by_cases hne : taken = []
        · exact .inl hne
        · exact .inr (begins_of_fits hlead fits hlength hne)

/-- A code point that begins with a byte of at least `0x80` is read from no byte below. -/
theorem le_of_mem_take_decode {x : UInt8} (hb : ¬b < 0x80)
    (hx : x ∈ (b :: rest).take (decode (b :: rest)).width) : 0x80 ≤ x.toNat := by
  obtain ⟨taken, more, rfl, hwidth, hhigh, -⟩ := decode_cases b rest
  rw [hwidth, List.take_succ_cons, List.take_left, List.mem_cons] at hx
  rcases hx with rfl | hx
  · rw [UInt8.lt_iff_toNat_lt] at hb
    exact Nat.not_lt.1 hb
  · exact hhigh x hx

/-- A code point below `0x80` is encoded by one byte below, so it is read from no other. -/
theorem char_decode_ne {c : Char} (hb : ¬b < 0x80) (hc : c.toNat < 0x80) :
    (decode (b :: rest)).char ≠ c := by
  rintro rfl
  obtain ⟨taken, more, rfl, -, -, hread | ⟨hread, -⟩⟩ := decode_cases b rest
  · rw [encode_one hc] at hread
    rw [← (List.cons.inj hread).1, UInt8.lt_iff_toNat_lt, toNat_ofNat (by omega)] at hb
    exact hb hc
  · rw [hread] at hc
    exact absurd hc (by decide)

end

/-- A sequence is as long without the bytes behind it. -/
lemma continuation_take {low high : UInt8} {bits width count n : Nat} {bytes : List UInt8}
    (h : (continuation low high bits width count bytes).width ≤ width + n) :
    continuation low high bits width count (bytes.take n) =
      continuation low high bits width count bytes := by
  induction count generalizing low high bits width n bytes with
  | zero => rfl
  | succ count ih =>
    cases bytes with
    | nil => rw [List.take_nil]
    | cons b rest =>
      cases n with
      | zero =>
        -- A byte that fits would be part of the sequence, so it does not fit.
        rw [continuation] at h ⊢
        split at h
        · next hb =>
          have hwidth := le_width_continuation 0x80 0xBF (bits * 64 + b.toNat % 64) (width + 1)
            count rest
          omega
        · next hb => rw [List.take_zero, continuation, if_neg hb]
      | succ n =>
        rw [List.take_succ_cons, continuation, continuation]
        split
        · next hb =>
          rw [continuation, if_pos hb] at h
          apply ih
          omega
        · rfl

/-- A code point is read alike without the bytes behind it. -/
theorem decode_take {bytes : List UInt8} {n : Nat} (h : (decode bytes).width ≤ n) :
    decode (bytes.take n) = decode bytes := by
  cases bytes with
  | nil => rw [List.take_nil]
  | cons b rest =>
    have hpos := width_decode_pos b rest
    obtain ⟨n, rfl⟩ := Nat.exists_eq_add_of_le' (Nat.le_trans hpos h)
    rw [List.take_succ_cons]
    by_cases hb : b < 0x80
    · rw [decode_cons_of_lt hb, decode_cons_of_lt hb]
    · rw [decode_cons_of_le hb] at h ⊢
      rw [decode_cons_of_le hb]
      cases hlead : lead? b with
      | none => rfl
      | some lead =>
        rw [hlead] at h
        apply continuation_take
        rwa [Nat.add_comm 1 n]

section

variable {low high : UInt8} {bits width count : Nat} {bytes : List UInt8}

/-- A sequence that stops before the end of the bytes stops there whatever follows them. -/
lemma continuation_append (more : List UInt8)
    (h : (continuation low high bits width count bytes).width < width + bytes.length) :
    continuation low high bits width count (bytes ++ more) =
      continuation low high bits width count bytes := by
  induction count generalizing low high bits width bytes with
  | zero => rfl
  | succ count ih =>
    cases bytes with
    | nil => exact absurd h (Nat.lt_irrefl width)
    | cons b bytes =>
      rw [List.cons_append, continuation, continuation]
      split
      · next hb =>
        rw [continuation, if_pos hb, List.length_cons] at h
        apply ih
        omega
      · rfl

/-- A code point is read alike if some bytes behind it are left. -/
theorem decode_append_of_lt (more : List UInt8) (h : (decode bytes).width < bytes.length) :
    decode (bytes ++ more) = decode bytes := by
  cases bytes with
  | nil => exact absurd h (Nat.lt_irrefl 0)
  | cons b bytes =>
    rw [List.cons_append]
    by_cases hb : b < 0x80
    · rw [decode_cons_of_lt hb, decode_cons_of_lt hb]
    · rw [decode_cons_of_le hb] at h ⊢
      rw [decode_cons_of_le hb]
      cases hlead : lead? b with
      | none => rfl
      | some lead =>
        rw [hlead, List.length_cons, Nat.add_comm] at h
        exact continuation_append more h

end

/-- No code point is read across the border between two lists of bytes: on one side of it stands a
byte below `0x80`, or nothing. -/
def Parted (xs ys : List UInt8) : Prop :=
  ∀ x ∈ xs.getLast?, ∀ y ∈ ys.head?, x < 0x80 ∨ y < 0x80

section

variable {xs ys : List UInt8} {x y : UInt8}

/-- Nothing is read across the end of the input. -/
lemma parted_nil (xs : List UInt8) : Parted xs [] := by
  rintro x - y ⟨⟩

/-- A byte below `0x80` parts itself from what stands before it. -/
lemma parted_of_head (xs : List UInt8) (hy : y < 0x80) : Parted xs (y :: ys) := by
  rintro x - _ ⟨⟩
  exact .inr hy

/-- A byte below `0x80` parts itself from what stands behind it. -/
lemma parted_of_last (hlast : [x] <:+ xs) (hx : x < 0x80) (ys : List UInt8) : Parted xs ys := by
  obtain ⟨front, rfl⟩ := hlast
  rintro _ hmem y -
  rw [List.getLast?_concat] at hmem
  cases hmem
  exact .inl hx

/-- Bytes that are parted stay so when some at the front are left out. -/
lemma Parted.drop (parted : Parted xs ys) (n : Nat) : Parted (xs.drop n) ys := by
  intro x hx
  rw [List.getLast?_drop] at hx
  split at hx
  · cases hx
  · exact parted x hx

/-- Of bytes that are parted, the first code point is read from the first ones alone. -/
lemma width_decode_append_le (parted : Parted xs ys) (hne : xs ≠ []) :
    (decode (xs ++ ys)).width ≤ xs.length := by
  apply Nat.not_lt.1
  intro hlt
  obtain ⟨n, hn⟩ := Nat.exists_eq_add_of_lt hlt
  cases xs with
  | nil => exact hne rfl
  | cons b xs =>
    cases ys with
    | nil =>
      have hle := width_decode_le (b :: xs ++ [])
      rw [List.append_nil] at hle hlt
      exact Nat.not_lt.2 hle hlt
    | cons y ys =>
      by_cases hb : b < 0x80
      · rw [List.cons_append, decode_cons_of_lt hb] at hlt
        exact Nat.not_lt.2 (Nat.le_add_left 1 _) hlt
      · -- The bytes on both sides of the border would be read together.
        have hall : ∀ x ∈ (b :: xs ++ y :: ys).take (decode (b :: xs ++ y :: ys)).width,
            0x80 ≤ x.toNat := fun x hx => le_of_mem_take_decode hb hx
        rw [hn, Nat.add_assoc, List.take_length_add_append, List.take_succ_cons] at hall
        have hlast := List.getLast_mem (List.cons_ne_nil b xs)
        have hx := hall _ (List.mem_append_left _ hlast)
        have hy := hall y (List.mem_append_right _ List.mem_cons_self)
        rcases parted _ (List.getLast?_eq_some_getLast (List.cons_ne_nil b xs)) y rfl with h | h
        · exact Nat.not_le.2 (UInt8.lt_iff_toNat_lt.1 h) hx
        · exact Nat.not_le.2 (UInt8.lt_iff_toNat_lt.1 h) hy

/-- Before such a border a code point is read alike without what stands behind it. -/
theorem decode_append (parted : Parted xs ys) (hne : xs ≠ []) :
    decode (xs ++ ys) = decode xs := by
  have halone := decode_take (width_decode_append_le parted hne)
  rw [List.take_left] at halone
  exact halone.symm

end

end NestedComment.Utf8
