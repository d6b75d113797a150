import NestedComment.Proofs.Cursor.Comment

/-!
# Cursors abreast

Two cursors in different inputs are `Abreast` if they stand before the same bytes, behind which the
inputs go on as they like, and no code point is read across the end of these bytes. They show the
same code point, so a scan from one takes the same steps from the other until the bytes that both
share are used up (`Reaches.abreast`). A scan that comes to a verdict before that comes to it from
the other cursor as well, and leaves both as far from where they started (`scan_of_abreast`).
-/

namespace NestedComment

universe u v

open Scan

namespace Cursor

/-- Two cursors are as far from one offset as from the other, with the starts and the ends of their
tokens. -/
structure Aligned (start start' : Nat) (c d : Cursor) : Prop where
  position : c.position + start' = d.position + start
  tokenStart : c.tokenStart + start' = d.tokenStart + start
  tokenEnd : c.tokenEnd.map (· + start') = d.tokenEnd.map (· + start)

/-- Two cursors are aligned and stand before the same bytes, one before `tail` and the other before
`tail'`. -/
structure Abreast (start start' : Nat) (tail tail' : List UInt8) (c d : Cursor) : Prop
    extends Aligned start start' c d where
  shared : ∃ s, c.rest = s ++ tail ∧ d.rest = s ++ tail' ∧ Utf8.Parted s tail ∧ Utf8.Parted s tail'

section

variable {start start' : Nat} {tail tail' : List UInt8} {c d : Cursor}

/-- A byte stands before the tail. -/
lemma length_lt_of_rest {x : UInt8} (h : c.rest = x :: tail) : tail.length < c.rest.length := by
  rw [h]
  exact Nat.lt_succ_self _

/-- As long as some bytes are shared both cursors read their next code point from these alone. -/
lemma Abreast.exists_shared (abreast : Abreast start start' tail tail' c d)
    (hmore : tail.length < c.rest.length) :
    ∃ s, (Host.eof c = false ∧ Host.eof d = false) ∧ (c.rest = s ++ tail ∧ d.rest = s ++ tail') ∧
      (Utf8.Parted s tail ∧ Utf8.Parted s tail') ∧
      c.ahead = Utf8.decode s ∧ d.ahead = Utf8.decode s := by
  obtain ⟨s, hc, hd, parted, parted'⟩ := abreast.shared
  have hne : s ≠ [] := by
    rintro rfl
    rw [hc] at hmore
    exact lt_irrefl _ hmore
  have he := eof_of_rest (hc ▸ List.append_ne_nil_of_left_ne_nil hne tail)
  have he' := eof_of_rest (hd ▸ List.append_ne_nil_of_left_ne_nil hne tail')
  refine ⟨s, ⟨he, he'⟩, ⟨hc, hd⟩, ⟨parted, parted'⟩, ?_, ?_⟩
  · rw [ahead, hc, Utf8.decode_append parted hne]
  · rw [ahead, hd, Utf8.decode_append parted' hne]

/-- Cursors that are abreast see the same code point, as long as some bytes are shared. -/
lemma Abreast.peek_eq (abreast : Abreast start start' tail tail' c d)
    (hmore : tail.length < c.rest.length) : Host.peek c = Host.peek d := by
  obtain ⟨s, ⟨he, he'⟩, -, -, hahead, hahead'⟩ := abreast.exists_shared hmore
  rw [Host.peek_of_not_eof he, Host.peek_of_not_eof he']
  exact congrArg (fun x : Utf8.Decoded => some x.char) (hahead.trans hahead'.symm)

/-- Cursors that are abreast stay so when both move, as long as some bytes are shared. -/
lemma Abreast.advance (abreast : Abreast start start' tail tail' c d) (skip : Bool)
    (hmore : tail.length < c.rest.length) :
    Abreast start start' tail tail' (c.advance skip) (d.advance skip) := by
  obtain ⟨s, ⟨he, he'⟩, ⟨hc, hd⟩, ⟨parted, parted'⟩, hahead, hahead'⟩ :=
    abreast.exists_shared hmore
  have hwidth := Utf8.width_decode_le s
  have hposition := abreast.position
  have moved : c.position + (Utf8.decode s).width + start' =
      d.position + (Utf8.decode s).width + start := by omega
  rw [advance_eq skip he, advance_eq skip he', hahead, hahead', hc, hd,
    List.drop_append_of_le_length hwidth, List.drop_append_of_le_length hwidth]
  refine ⟨⟨moved, ?_, abreast.tokenEnd⟩, _, rfl, rfl, parted.drop _, parted'.drop _⟩
  cases skip with
  | false => exact abreast.tokenStart
  | true => exact moved

/-- Both cursors report a token that ends as far behind one offset as behind the other. -/
lemma Abreast.report (abreast : Abreast start start' tail tail' c d)
    (hmore : tail.length < c.rest.length) :
    Aligned start start' (report c) (report d) := by
  have moved := abreast.advance false hmore
  rw [report_eq, report_eq]
  exact ⟨moved.position, moved.tokenStart, congrArg some moved.position⟩

variable {s input input' : List UInt8}

/-- Two inputs in which the same bytes stand, before which new cursors are abreast. -/
lemma abreast_atOffset (h : start ≤ input.length) (h' : start' ≤ input'.length)
    (hdrop : input.drop start = s ++ tail) (hdrop' : input'.drop start' = s ++ tail')
    (parted : Utf8.Parted s tail) (parted' : Utf8.Parted s tail') :
    Abreast start start' tail tail' (atOffset input start) (atOffset input' start') := by
  have hposition := position_atOffset h
  have hposition' := position_atOffset h'
  refine ⟨⟨?_, ?_, rfl⟩, s, (rest_atOffset h).trans hdrop, (rest_atOffset h').trans hdrop', parted,
    parted'⟩
  · rw [hposition, hposition', Nat.add_comm]
  · rw [tokenStart_atOffset, tokenStart_atOffset, hposition, hposition', Nat.add_comm]

end

end Cursor

namespace Scan

variable {o : Options} {p q : Phase} {start start' : Nat} {tail tail' : List UInt8}
  {c d e k k' : Cursor} {verdict : Verdict}

/-- At the end of the input a scan goes on only to enter the comment, whatever the host shows. -/
lemma going_of_eof {σ : Type u} {τ : Type v} [Host σ] [Host τ] {h k : σ}
    (hs : step o p h = .going q k) (hc : Host.peek h = none) (g : τ) :
    k = h ∧ step o p g = .going q g := by
  rcases step_going_cases hs with ⟨hr, rfl⟩ | ⟨skip, x, hx, -, -⟩
  · rw [hc] at hr
    obtain ⟨-, -, -, rfl | ⟨b, rfl, -⟩⟩ := Phase.hold_cases hr
    · refine ⟨rfl, ?_⟩
      have hany : Phase.entering.react o (Host.peek g) = .hold q := hr
      rw [step, hany]
      rfl
    · cases hr
  · rw [hc] at hx
    cases hx

/-- A step from one cursor is taken from the other as well, unless the bytes that both share are
used up and more follow. -/
lemma step_abreast (abreast : c.Abreast start start' tail tail' d)
    (hmore : tail.length < c.rest.length ∨ tail = []) (hs : step o p c = .going q k) :
    ∃ k', step o p d = .going q k' ∧ k.Abreast start start' tail tail' k' := by
  by_cases hlt : tail.length < c.rest.length
  · have hpeek := abreast.peek_eq hlt
    rcases step_going_cases hs with ⟨hr, rfl⟩ | ⟨skip, x, hx, hr, rfl⟩
    · refine ⟨d, ?_, abreast⟩
      rw [step, ← hpeek, hr]
      rfl
    · refine ⟨d.advance skip, ?_, abreast.advance skip hlt⟩
      rw [step, ← hpeek, hx, hr]
      rfl
  · obtain rfl : tail = [] := hmore.resolve_left hlt
    have hend : c.rest = [] := List.eq_nil_of_length_eq_zero (Nat.le_zero.1 (not_lt.1 hlt))
    have hc : Host.peek c = none := Host.peek_eq_none_iff.2 (List.isEmpty_iff.2 hend)
    obtain ⟨rfl, hd⟩ := going_of_eof hs hc d
    exact ⟨d, hd, abreast⟩

/-- A scan that is under way from one cursor is under way from the other, until the bytes that both
share are used up. -/
theorem Reaches.abreast (reached : Reaches o p c q k)
    (abreast : c.Abreast start start' tail tail' d)
    (hmore : tail.length < k.rest.length ∨ tail = []) :
    ∃ k', Reaches o p d q k' ∧ k.Abreast start start' tail tail' k' := by
  induction reached generalizing d with
  | refl => exact ⟨d, .refl, abreast⟩
  | go hs rest ih =>
    have hsize := (Reaches.go hs rest).size_le
    obtain ⟨g', hs', abreast'⟩ := step_abreast abreast (hmore.imp_left hsize.trans_lt') hs
    obtain ⟨k', reached', abreast''⟩ := ih abreast' hmore
    exact ⟨k', .go hs' reached', abreast''⟩

/-- A verdict that is come to before the bytes that both cursors share are used up is come to from
both. -/
theorem scan_of_abreast (abreast : k.Abreast start start' tail tail' k')
    (reached : Reaches o .leading d q k') (hmore : tail.length < k.rest.length)
    (hs : step o q k = .stopped verdict e) :
    ∃ e', scan o d = (verdict, e') ∧ e.Aligned start start' e' := by
  have hpeek := abreast.peek_eq hmore
  rw [scan, reached.run_eq]
  rcases step_stopped_cases hs with ⟨reason, hr, rfl, rfl⟩ | ⟨final, hparen, hr, rfl, rfl⟩
  · refine ⟨k', run_of_stopped ?_, abreast.toAligned⟩
    rw [step, ← hpeek, hr]
    rfl
  · refine ⟨report k', run_of_stopped ?_, abreast.report hmore⟩
    rw [step, ← hpeek, hparen, hr]
    rfl

end Scan

end NestedComment
