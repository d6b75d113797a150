import Mathlib.Order.Interval.Set.Basic
import NestedComment.Proofs.Cursor.Scan
import NestedComment.Proofs.Utf8.Starts

/-!
# What a cursor passes

A cursor that moves to the end of its input sees one code point after the other. Of a text that is
encoded at its front it sees the code points one by one (`sights_of_encode`), and what it sees behind
them depends on nothing but the bytes there (`sights_shift`). The spans that it passes join
(`position_cons_stops`), so each byte is in one of them (`Placed.existsUnique_sight`), and each span
is cut where no longer one begins an encoding (`Placed.sound_sight`). `sights_ofInput` puts this
together.
-/

namespace NestedComment

/-- A code point that was seen at a cursor, with the offset of the cursor and the one it moved to. -/
structure Sight where
  start : Nat
  stop : Nat
  char : Char

namespace Sight

/-- What is seen with `n` more bytes before it. -/
def shift (n : Nat) (s : Sight) : Sight := ⟨s.start + n, s.stop + n, s.char⟩

/-- The bytes that a code point was read from. -/
def bytes (input : List UInt8) (s : Sight) : List UInt8 := Cursor.span input s.start s.stop

/-- A code point is read from up to four bytes of the input. Several bytes are read together only if
none of them is below `0x80` and they begin an encoding, and no more bytes begin one. An encoding
shows what it encodes, and whatever is none shows the replacement character. -/
structure Sound (input : List UInt8) (s : Sight) : Prop where
  start_lt_stop : s.start < s.stop
  stop_le_length : s.stop ≤ input.length
  stop_le : s.stop ≤ s.start + 4
  high : s.start + 1 < s.stop → ∀ x ∈ s.bytes input, 0x80 ≤ x
  begins : s.start + 1 < s.stop → Utf8.Begins (s.bytes input)
  longest : ∀ stop, s.stop < stop → stop ≤ input.length →
    ¬Utf8.Begins (Cursor.span input s.start stop)
  encoded : ∀ c, s.bytes input = String.utf8EncodeChar c → s.char = c
  malformed : (∀ c, s.bytes input ≠ String.utf8EncodeChar c) → s.char = Utf8.replacement

end Sight

namespace Cursor

/-- What is seen from a cursor on, which moves without skipping until the input has ended. -/
def sights (c : Cursor) : List Sight :=
  if _he : Host.eof c = false then
    ⟨c.position, (Host.advance false c).position, Host.lookahead c⟩ :: sights (Host.advance false c)
  else []
termination_by BoundedHost.size c
decreasing_by exact BoundedHost.size_advance_lt false c _he

section

variable {c d : Cursor} {n i : Nat}

/-- Before the end of the input the code point ahead is seen, then those behind it. -/
lemma sights_of_not_eof (he : Host.eof c = false) :
    c.sights = ⟨c.position, (Host.advance false c).position, Host.lookahead c⟩ ::
      (Host.advance false c).sights := by
  rw [sights, dif_pos he]

/-- What is seen is told by the bytes from the cursor on, and shifted with its offset. -/
lemma sights_shift (hrest : c.rest = d.rest) (hposition : c.position = d.position + n) :
    c.sights = d.sights.map (Sight.shift n) := by
  fun_induction sights d generalizing c with
  | case1 d he ih =>
    have hec : Host.eof c = false := (congrArg List.isEmpty hrest).trans he
    have hahead : c.ahead = d.ahead := congrArg Utf8.decode hrest
    have hchar : Host.lookahead c = Host.lookahead d := congrArg Utf8.Decoded.char hahead
    have hmoved : (Host.advance false c).position = (Host.advance false d).position + n := by
      show (c.advance false).position = (d.advance false).position + n
      rw [position_advance false hec, position_advance false he, hposition, hahead,
        Nat.add_right_comm]
    have hleft : (Host.advance false c).rest = (Host.advance false d).rest := by
      show (c.advance false).rest = (d.advance false).rest
      rw [advance_eq false hec, advance_eq false he, hrest, hahead]
    rw [sights_of_not_eof hec, List.map_cons, ih hleft hmoved, hposition, hmoved, hchar]
    rfl
  | case2 d he =>
    have hec : ¬Host.eof c = false := fun h => he ((congrArg List.isEmpty hrest).symm.trans h)
    rw [sights, dif_neg hec, List.map_nil]

/-- Of an encoded text the code points are seen one by one, at their own offsets. -/
lemma sights_of_encode {cs : List Char} {bytes : List UInt8}
    (hr : c.rest = Utf8.encode cs ++ bytes) :
    ∃ d : Cursor, d.rest = bytes ∧ d.position = c.position + (Utf8.encode cs).length ∧
      c.sights = cs.mapIdx (fun i x =>
        ⟨c.position + Utf8.offset cs i, c.position + Utf8.offset cs (i + 1), x⟩) ++ d.sights := by
  induction cs generalizing c with
  | nil => exact ⟨c, hr, rfl, rfl⟩
  | cons x cs ih =>
    rw [Utf8.encode_cons, List.append_assoc] at hr
    have he : Host.eof c = false := by
      apply eof_of_rest
      rw [hr]
      exact List.append_ne_nil_of_left_ne_nil String.utf8EncodeChar_ne_nil _
    have hahead : c.ahead = ⟨x, x.utf8Size⟩ := by
      rw [ahead, hr, Utf8.decode_encode]
    have hchar : Host.lookahead c = x := congrArg Utf8.Decoded.char hahead
    have hmoved : (Host.advance false c).position = c.position + x.utf8Size := by
      show (c.advance false).position = _
      rw [position_advance false he, hahead]
    have hleft : (Host.advance false c).rest = Utf8.encode cs ++ bytes := by
      show (c.advance false).rest = _
      rw [advance_eq false he, hahead, hr]
      exact List.drop_left' (String.length_utf8EncodeChar x)
    obtain ⟨d, hrest, hposition, hsights⟩ := ih hleft
    refine ⟨d, hrest, ?_, ?_⟩
    · rw [hposition, hmoved, Utf8.encode_cons, List.length_append, String.length_utf8EncodeChar,
        Nat.add_assoc]
    · rw [sights_of_not_eof he, hsights, List.mapIdx_cons, hmoved, hchar, List.cons_append]
      simp only [Utf8.offset_cons_succ, Utf8.offset_zero, Nat.add_zero, Nat.add_assoc]

/-- The spans join: each starts where the one before stops, the first at the cursor, and the last
stops at the end of the input. -/
lemma position_cons_stops (c : Cursor) : c.position :: c.sights.map Sight.stop =
    c.sights.map Sight.start ++ [c.position + c.rest.length] := by
  fun_induction sights c with
  | case1 c he ih =>
    have hlength : (Host.advance false c).position + (Host.advance false c).rest.length =
        c.position + c.rest.length := by
      have hwidth : c.ahead.width ≤ c.rest.length := Utf8.width_decode_le c.rest
      show (c.advance false).position + (c.advance false).rest.length = _
      rw [advance_eq false he, List.length_drop]
      dsimp only
      omega
    rw [List.map_cons, List.map_cons, List.cons_append, ih, hlength]
  | case2 c he =>
    have hrest : c.rest = [] := List.isEmpty_iff.1 (Bool.eq_true_of_not_eq_false he)
    rw [hrest]
    rfl

/-- What is seen from a cursor on starts no earlier. -/
lemma position_le_start (c : Cursor) : ∀ s ∈ c.sights, c.position ≤ s.start := by
  fun_induction sights c with
  | case1 c he ih =>
    refine List.forall_mem_cons.2 ⟨le_rfl, ?_⟩
    intro s hs
    exact (position_le_advance false c).trans (ih s hs)
  | case2 c he => simp

/-- Each byte from a cursor on belongs to one span. -/
lemma Placed.existsUnique_sight (placed : c.Placed)
    (hi : i ∈ Set.Ico c.position c.input.length) :
    ∃! s, s ∈ c.sights ∧ i ∈ Set.Ico s.start s.stop := by
  fun_induction sights c with
  | case1 c he ih =>
    have hinput : (Host.advance false c).input = c.input := input_advance false c
    rcases lt_or_ge i (Host.advance false c).position with hlt | hge
    · -- Whatever is seen later starts behind `i`.
      refine ⟨_, ⟨List.mem_cons_self, hi.1, hlt⟩, ?_⟩
      rintro s ⟨hs, hin⟩
      rcases List.mem_cons.1 hs with rfl | hs
      · rfl
      · exact absurd hin.1 (not_le.2 (hlt.trans_le (position_le_start _ s hs)))
    · obtain ⟨s, ⟨hs, hin⟩, honly⟩ := ih (placed.advance false) ⟨hge, hinput.symm ▸ hi.2⟩
      refine ⟨s, ⟨List.mem_cons_of_mem _ hs, hin⟩, ?_⟩
      rintro r ⟨hr, hin⟩
      rcases List.mem_cons.1 hr with rfl | hr
      · exact absurd hin.2 (not_lt.2 hge)
      · exact honly r ⟨hr, hin⟩
  | case2 c he =>
    have hend : Host.eof c = true := Bool.eq_true_of_not_eq_false he
    have hlength := placed.length_eq
    rw [List.isEmpty_iff.1 hend, List.length_nil] at hlength
    exact absurd hi.2 (not_lt.2 (hlength.symm.le.trans hi.1))

/-- The next bytes of the input are the first ones that a cursor stands before. -/
lemma Placed.span_eq_take (placed : c.Placed) (n : Nat) :
    span c.input c.position (c.position + n) = c.rest.take n := by
  rw [span, Nat.add_sub_cancel_left, placed.rest_eq]

/-- What is seen at a cursor is sound. -/
lemma Placed.sound_sight (placed : c.Placed) (he : Host.eof c = false) :
    Sight.Sound c.input ⟨c.position, (Host.advance false c).position, Host.lookahead c⟩ := by
  have hmoved : (Host.advance false c).position = c.position + c.ahead.width :=
    position_advance false he
  have hne : c.rest ≠ [] := List.isEmpty_eq_false_iff.1 he
  have hlength := placed.length_eq
  have hwidth : c.ahead.width ≤ c.rest.length := Utf8.width_decode_le c.rest
  have hspan := placed.span_eq_take c.ahead.width
  have hseveral : c.position + 1 < c.position + c.ahead.width → 1 < c.ahead.width := by omega
  rw [hmoved]
  refine ⟨?_, ?_, ?_, ?_, ?_, ?_, ?_, ?_⟩
  · have hlt := position_lt_advance false he
    rwa [position_advance false he] at hlt
  · show c.position + c.ahead.width ≤ c.input.length
    omega
  · exact Nat.add_le_add_left (Utf8.width_decode_le_four c.rest) c.position
  · intro hlt x hx
    rw [Sight.bytes, hspan] at hx
    exact Utf8.le_of_mem_take (hseveral hlt) hx
  · intro hlt
    rw [Sight.bytes, hspan]
    exact Utf8.begins_take_decode (hseveral hlt)
  · intro stop hlt hle
    obtain ⟨n, rfl⟩ := Nat.exists_eq_add_of_le ((Nat.le_add_right _ _).trans hlt.le)
    rw [placed.span_eq_take]
    have hmore : c.ahead.width < n := Nat.lt_of_add_lt_add_left hlt
    exact Utf8.not_begins_take hmore (by omega)
  · intro x hx
    rw [Sight.bytes, hspan] at hx
    exact Utf8.char_decode_of_encoded hx
  · intro hx
    rw [Sight.bytes, hspan] at hx
    exact Utf8.char_decode_of_malformed hne hx

/-- Everything that is seen from a cursor on is sound. -/
lemma Placed.sound_sights (placed : c.Placed) : ∀ s ∈ c.sights, s.Sound c.input := by
  fun_induction sights c with
  | case1 c he ih =>
    have hrest := ih (placed.advance false)
    rw [show (Host.advance false c).input = c.input from input_advance false c] at hrest
    exact List.forall_mem_cons.2 ⟨placed.sound_sight he, hrest⟩
  | case2 c he => simp

end

/-- A cursor that moves from the start to the end of its input sees the code points of a text that
is encoded at the front, each at its own bytes, and then what it would see if the text were not
there. The spans that it passes join, each byte of the input is in one of them, and each of them is
sound. -/
theorem sights_ofInput (cs : List Char) (bytes input : List UInt8) :
    (ofInput (Utf8.encode cs ++ bytes)).sights =
        cs.mapIdx (fun i x => ⟨Utf8.offset cs i, Utf8.offset cs (i + 1), x⟩) ++
          (ofInput bytes).sights.map (Sight.shift (Utf8.encode cs).length) ∧
      let passed := (ofInput input).sights
      0 :: passed.map Sight.stop = passed.map Sight.start ++ [input.length] ∧
      (∀ i < input.length, ∃! s, s ∈ passed ∧ i ∈ Set.Ico s.start s.stop) ∧
      ∀ s ∈ passed, s.Sound input := by
  have placed : (ofInput input).Placed := placed_atOffset input 0
  refine ⟨?_, ?_, ?_, placed.sound_sights⟩
  · obtain ⟨d, hrest, hposition, hsights⟩ :=
      sights_of_encode (c := ofInput (Utf8.encode cs ++ bytes)) rfl
    have hstart : (ofInput (Utf8.encode cs ++ bytes)).position = 0 := Nat.zero_min _
    rw [hstart] at hposition hsights
    have hshift : d.sights = (ofInput bytes).sights.map (Sight.shift (Utf8.encode cs).length) := by
      apply sights_shift hrest
      rw [hposition]
      rfl
    rw [hsights, hshift]
    simp only [Nat.zero_add]
  · have hjoin := position_cons_stops (ofInput input)
    have hlength := placed.length_eq
    rw [hlength] at hjoin
    exact hjoin
  · intro i hi
    exact placed.existsUnique_sight ⟨Nat.zero_le i, hi⟩

/-- A line separator, a byte that begins no encoding, and a letter. -/
example : (ofInput [0xE2, 0x80, 0xA8, 0xFF, 0x7A]).sights =
    [⟨0, 3, '\u2028'⟩, ⟨3, 4, Utf8.replacement⟩, ⟨4, 5, 'z'⟩] := by
  cbv

end Cursor

end NestedComment
