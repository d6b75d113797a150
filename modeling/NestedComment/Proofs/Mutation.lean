import Mathlib.Order.Nat
import NestedComment.Mutation

/-!
# Fresh data stay inside their buffer

Blanks and comments can be drawn for any room, and what is drawn fits it (`fits_blanks`,
`fits_comment`). So no write fails, and no bytes behind those that are done are touched: adding
keeps a buffer `Sound` (`Sound.add`), so does a round, and so do all rounds until there are as many
bytes as asked for or as the buffer may hold (`Sound.fill`). `mutate_fresh` says the same of the
buffer as a whole.
-/

namespace NestedComment.Mutation

section

variable {make : Nat → Draws → Except Fault (List UInt8 × Draws)}
  {original buffer bytes : List UInt8} {offset maxSize : Nat} {s : State}

/-- Blanks fit the room they are drawn for. -/
lemma length_blanks_le (count room : Nat) (d : Draws) : (blanks count room d).1.length ≤ room := by
  fun_induction blanks count room d with
  | case1 => exact Nat.zero_le _
  | case2 => exact Nat.zero_le _
  | case3 room d count i d' hi blank hfits more d'' hmore ih =>
    simp only [hmore] at ih
    rw [List.length_append]
    omega

/-- Something can be drawn for every room, and it fits the room. -/
def Fits (make : Nat → Draws → Except Fault (List UInt8 × Draws)) : Prop :=
  ∀ room d, ∃ bytes d', make room d = .ok (bytes, d') ∧ bytes.length ≤ room

/-- Blanks can be drawn for every room. -/
lemma fits_blanks (count : Nat) : Fits fun room d => .ok (blanks count room d) :=
  fun room d => ⟨_, _, rfl, length_blanks_le count room d⟩

/-- A comment can be drawn for every room. -/
lemma fits_comment (size : Nat) : Fits (comment size) := by
  intro room d
  obtain ⟨bytes, d', hmade, hfits, -⟩ := exists_comment size room d
  exact ⟨bytes, d', hmade, hfits⟩

/-- A write inside the buffer succeeds and leaves alone what is behind the bytes that are written.
-/
lemma write_ok (h : offset + bytes.length ≤ buffer.length) :
    ∃ after, write buffer offset bytes = .ok after ∧ after.length = buffer.length ∧
      after.drop (offset + bytes.length) = buffer.drop (offset + bytes.length) := by
  refine ⟨_, if_pos h, ?_, ?_⟩
  · simp only [List.length_append, List.length_take, List.length_drop]
    omega
  · have hfront : (buffer.take offset ++ bytes).length = offset + bytes.length := by
      rw [List.length_append, List.length_take]
      omega
    rw [← hfront, List.drop_left]

/-- A buffer that was made from `original`: no more bytes than allowed are done, and the others are
the original ones. -/
structure State.Sound (original : List UInt8) (maxSize : Nat) (s : State) : Prop where
  filled_le : s.filled ≤ maxSize
  length_eq : s.buffer.length = original.length
  drop_eq : s.buffer.drop s.filled = original.drop s.filled

namespace State

/-- Nothing that is drawn changes whether a buffer is sound. -/
lemma Sound.redraw (sound : s.Sound original maxSize) (draws : Draws) :
    ({ s with draws } : State).Sound original maxSize :=
  ⟨sound.filled_le, sound.length_eq, sound.drop_eq⟩

/-- Adding what fits the room succeeds. -/
theorem Sound.add (sound : s.Sound original maxSize) (hmax : maxSize ≤ original.length)
    (hfits : Fits make) : ∃ t, s.add make maxSize = .ok t ∧ t.Sound original maxSize := by
  have hfilled := sound.filled_le
  have hlength := sound.length_eq
  have hroom : s.room maxSize = .ok (maxSize - s.filled) := by
    rw [room, if_neg (by omega), if_neg (by omega)]
  obtain ⟨bytes, draws, hmade, hbytes⟩ := hfits (maxSize - s.filled) s.draws
  have hend : s.filled + bytes.length ≤ maxSize := (Nat.le_sub_iff_add_le' hfilled).1 hbytes
  obtain ⟨after, hwrite, hlength', hdrop⟩ :=
    write_ok (hend.trans (hmax.trans hlength.ge))
  refine ⟨⟨after, s.filled + bytes.length, draws⟩, ?_, hend, hlength'.trans hlength, ?_⟩
  · rw [State.add, hroom]
    simp only [bind, Except.bind, hmade, hwrite]
  · rw [hdrop, ← List.drop_drop, sound.drop_eq, List.drop_drop]

/-- Adding blanks and a comment succeeds. -/
theorem Sound.addRound (sound : s.Sound original maxSize) (hmax : maxSize ≤ original.length)
    (size : Nat) : ∃ t, s.addRound size maxSize = .ok t ∧ t.Sound original maxSize := by
  cases hcount : s.draws.below (maxBlanks + 1) (by decide) with
  | mk count draws =>
    obtain ⟨t, ht, soundt⟩ := (sound.redraw draws).add hmax (fits_blanks count)
    obtain ⟨u, hu, soundu⟩ := soundt.add hmax (fits_comment size)
    refine ⟨u, ?_, soundu⟩
    rw [State.addRound]
    simp only [bind, Except.bind, hcount, ht]
    exact hu

/-- All rounds succeed, and stop only when there are as many bytes as asked for or as allowed. -/
theorem Sound.fill (sound : s.Sound original maxSize) (hmax : maxSize ≤ original.length)
    (size : Nat) : ∃ t, s.fill size maxSize = .ok t ∧ t.Sound original maxSize ∧
      min (max size 2) maxSize ≤ t.filled := by
  fun_induction State.fill size maxSize s with
  | case1 s h t hround ih =>
    obtain ⟨t', hround', soundt⟩ := sound.addRound hmax size
    rw [hround] at hround'
    cases hround'
    exact ih soundt
  | case2 s h e hround =>
    obtain ⟨t, hround', -⟩ := sound.addRound hmax size
    rw [hround] at hround'
    cases hround'
  | case3 s h =>
    refine ⟨s, rfl, sound, ?_⟩
    omega

end State

end

/-- Fresh data are made in any buffer that holds as many bytes as allowed, whatever is drawn and
however many bytes are asked for: no place outside the buffer is used, and no more bytes are counted
than allowed. There are as many bytes as asked for, and at least two, or as many as allowed. The
bytes of the buffer behind them are the ones that were there. -/
theorem mutate_fresh (draws : Draws) {buffer : List UInt8} {size maxSize : Nat} {seed : UInt32}
    (hmax : 1 ≤ maxSize) (hbuffer : maxSize ≤ buffer.length)
    (hfresh : size < 1 ∨ seed.toNat % 10 = 0) :
    ∃ after n, mutate draws buffer size maxSize seed = .ok (.fresh after n) ∧
      min (max size 2) maxSize ≤ n ∧ n ≤ maxSize ∧ after.length = buffer.length ∧
      after.drop n = buffer.drop n := by
  have hroom : 0 + [draws.byte.1].length ≤ buffer.length := hmax.trans hbuffer
  obtain ⟨flagged, hwrite, hlength, hdrop⟩ := write_ok hroom
  have sound : (⟨flagged, 1, draws.byte.2⟩ : State).Sound buffer maxSize :=
    ⟨hmax, hlength, hdrop⟩
  obtain ⟨t, hfill, soundt, hleast⟩ := sound.fill hbuffer size
  refine ⟨t.buffer, t.filled, ?_, hleast, soundt.filled_le, soundt.length_eq, soundt.drop_eq⟩
  rw [mutate, if_pos hfresh]
  simp only [bind, Except.bind, hwrite, hfill]

/-- More bytes are asked for than the buffer may hold, and a blank of two bytes fills it exactly. -/
theorem mutate_fresh_of_excess :
    let draws : Draws := ⟨fun i => [7, 1, 4].getD i 0, 0⟩
    (10 : UInt32).toNat % 10 = 0 ∧
      ∃ after, mutate draws [1, 2, 3, 4] 9 3 10 = .ok (.fresh after 3) ∧ after.length = 4 ∧
        after.drop 3 = [4] := by
  intro draws
  obtain ⟨after, n, hok, hleast, hmost, hlength, hdrop⟩ :=
    @mutate_fresh draws [1, 2, 3, 4] 9 3 10 (by decide) (by decide) (.inr rfl)
  have hn : n = 3 := le_antisymm hmost hleast
  rw [hn] at hdrop hok
  exact ⟨rfl, after, hok, hlength, hdrop⟩

end NestedComment.Mutation
