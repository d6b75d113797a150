import NestedComment.Proofs.Cursor.Text
import NestedComment.Proofs.Utf8.Decode

/-!
# Scans of bytes

A comment ends at the same offset whether its body is read as code points or byte by byte. `Octets`
is a host that takes every byte for a code point of its own. Where a cursor passes one code point of
several bytes, such a host passes as many bytes, and a scan makes nothing of any of them
(`trail_of_inert`), so both stay in step (`run_body_octets`). `scan_octets` compares whole scans.
-/

namespace NestedComment

open Scan

/-- A place on a list of bytes, each of which is a code point of its own. -/
structure Octets where
  position : Nat
  /-- The bytes from `position` on. -/
  rest : List UInt8
  tokenEnd : Option Nat
  deriving DecidableEq

namespace Octets

/-- The byte at an offset, with no end of a token marked. -/
def atOffset (input : List UInt8) (offset : Nat) : Octets :=
  ⟨offset, input.drop offset, none⟩

/-- The code point that a byte is. -/
def codePoint (b : UInt8) : Char := Char.ofNat b.toNat

/-- Bytes as code points. -/
def codePoints (bytes : List UInt8) : List Char := bytes.map codePoint

/-- Each byte is one code point. -/
@[simp] lemma length_codePoints (bytes : List UInt8) : (codePoints bytes).length = bytes.length :=
  List.length_map codePoint

/-- The code points of bytes in a row stand in a row. -/
@[simp] lemma codePoints_append (xs ys : List UInt8) :
    codePoints (xs ++ ys) = codePoints xs ++ codePoints ys :=
  List.map_append

/-- No byte is a part of a delimiter. -/
def Inert (bytes : List UInt8) : Prop := ∀ b ∈ bytes, b ≠ 0x28 ∧ b ≠ 0x2A ∧ b ≠ 0x29

/-- Moves past one byte. -/
def advance (x : Octets) : Octets :=
  match x.rest with
  | [] => x
  | _ :: rest => { x with position := x.position + 1, rest }

instance : BoundedHost Octets where
  lookahead x := codePoint (x.rest.head?.getD 0)
  eof x := x.rest.isEmpty
  advance _ := advance
  markEnd x := { x with tokenEnd := some x.position }
  setSymbol _ x := x
  size x := x.rest.length
  size_advance_lt _ x h := by
    obtain ⟨position, rest, tokenEnd⟩ := x
    cases rest with
    | nil => cases h
    | cons b rest => simp [advance]

instance : Readable Octets where
  text x := x.rest.map codePoint
  peek_eq x := by
    obtain ⟨position, rest, tokenEnd⟩ := x
    cases rest with
    | nil => rfl
    | cons b rest => rfl
  text_advance _ x h := by
    obtain ⟨position, rest, tokenEnd⟩ := x
    cases rest with
    | nil => cases h
    | cons b rest => rfl

/-- The text that is read from bytes is made of the code points that they are. -/
lemma text_eq (x : Octets) : Readable.text x = x.rest.map codePoint := rfl

/-- To move `n` times on bytes is to move past `n` of them. -/
lemma iterate_advance {x : Octets} {n : Nat} (skip : Bool) (h : n ≤ x.rest.length) :
    (Host.advance skip)^[n] x = ⟨x.position + n, x.rest.drop n, x.tokenEnd⟩ := by
  induction n generalizing x with
  | zero => rfl
  | succ n ih =>
    obtain ⟨position, rest, tokenEnd⟩ := x
    cases rest with
    | nil => cases h
    | cons b rest =>
      have hle : n ≤ rest.length := Nat.le_of_succ_le_succ h
      have moved : Host.advance skip (⟨position, b :: rest, tokenEnd⟩ : Octets) =
          ⟨position + 1, rest, tokenEnd⟩ := rfl
      rw [Function.iterate_succ_apply, moved, ih hle, List.drop_succ_cons]
      simp only [Nat.add_assoc, Nat.add_comm 1 n]

/-- The place behind `n` bytes and one more, marked as the end of a token. -/
lemma report_iterate {x : Octets} {n : Nat} (h : n + 1 ≤ x.rest.length) :
    (report ((Host.advance false)^[n] x)).position = x.position + (n + 1) ∧
      (report ((Host.advance false)^[n] x)).tokenEnd = some (x.position + (n + 1)) := by
  have moved : Host.advance false ((Host.advance false)^[n] x) =
      ⟨x.position + (n + 1), x.rest.drop (n + 1), x.tokenEnd⟩ := by
    rw [← Function.iterate_succ_apply' (Host.advance false) n x, iterate_advance false h]
  exact ⟨congrArg Octets.position moved, congrArg (fun y : Octets => some y.position) moved⟩

/-- A byte and its code point are the same number. -/
lemma toNat_codePoint (b : UInt8) : (codePoint b).toNat = b.toNat := by
  have hvalid : b.toNat.isValidChar := .inl (by have := b.toNat_lt; omega)
  rw [codePoint, Char.ofNat, dif_pos hvalid]
  rfl

/-- Different bytes are different code points. -/
lemma codePoint_injective : Function.Injective codePoint := by
  intro b b' h
  apply UInt8.toNat_inj.1
  rw [← toNat_codePoint, h, toNat_codePoint]

/-- Inert bytes are inert code points. -/
lemma Inert.codePoints {bytes : List UInt8} (h : Inert bytes) :
    ∀ c ∈ codePoints bytes, Body.Inert c := by
  intro c hc
  obtain ⟨b, hb, rfl⟩ := List.mem_map.1 hc
  obtain ⟨hopen, hstar, hclose⟩ := h b hb
  exact ⟨codePoint_injective.ne hopen, codePoint_injective.ne hstar, codePoint_injective.ne hclose⟩

end Octets

/-- The bytes before a cursor. -/
def Cursor.octets (c : Cursor) : Octets := ⟨c.position, c.rest, c.tokenEnd⟩

section

variable {x : UInt8} {rest : List UInt8}

/-- A byte from `0x80` on is no part of a delimiter. -/
lemma inert_codePoint (hx : 0x80 ≤ x.toNat) : Body.Inert (Octets.codePoint x) := by
  rw [← Octets.toNat_codePoint] at hx
  refine ⟨?_, ?_, ?_⟩ <;> exact fun h => absurd (h ▸ hx) (by decide)

/-- What is read from a byte from `0x80` on is no part of a delimiter. -/
lemma inert_char_decode (hx : ¬x < 0x80) : Body.Inert (Utf8.decode (x :: rest)).char := by
  refine ⟨?_, ?_, ?_⟩ <;> exact Utf8.char_decode_ne hx (by decide)

end

namespace Cursor

variable {c : Cursor} {x : UInt8} {rest : List UInt8}

/-- The code point that a cursor sees is decoded from the bytes it stands before. -/
lemma peek_of_rest (hr : c.rest = x :: rest) :
    Host.peek c = some (Utf8.decode (x :: rest)).char := by
  rw [Readable.peek_eq, text_eq, hr, Utf8.decodeAll_cons]
  rfl

/-- To move past a code point is to move past each of its bytes. -/
lemma octets_advance (hr : c.rest = x :: rest) :
    (Host.advance false c).octets =
      (Host.advance false)^[(Utf8.decode (x :: rest)).width] c.octets := by
  have hle := Utf8.width_decode_le (x :: rest)
  rw [Octets.iterate_advance false (by rwa [octets, hr])]
  simp [Host.advance, advance, octets, ahead, hr]

/-- A byte below `0x80` is passed as one byte on both hosts. -/
lemma octets_advance_of_lt (hr : c.rest = x :: rest) (hx : x < 0x80) :
    (Host.advance false c).octets = Host.advance false c.octets := by
  rw [octets_advance hr, Utf8.decode_cons_of_lt hx]
  rfl

/-- A token that ends with a byte below `0x80` is reported alike on code points and on bytes. -/
lemma octets_report (hr : c.rest = x :: rest) (hx : x < 0x80) :
    (report c).octets = report c.octets := by
  have moved := octets_advance_of_lt hr hx
  rw [report_eq]
  exact congrArg (fun y : Octets => { y with tokenEnd := some y.position }) moved

/-- Behind an opener both hosts stand before the same bytes. -/
lemma octets_behind_opener (hr : c.rest = 0x28 :: 0x2A :: rest) :
    ((Host.advance false)^[2] c).octets = ⟨c.position + 2, rest, c.tokenEnd⟩ := by
  have first := octets_advance_of_lt hr (by decide)
  have hstar : (Host.advance false c).rest = 0x2A :: rest := by
    have hx : (Host.advance false c.octets).rest = 0x2A :: rest := by
      rw [octets, hr]
      rfl
    rwa [← first] at hx
  rw [Function.iterate_succ_apply, Function.iterate_one, octets_advance_of_lt hstar (by decide),
    first, octets, hr]
  rfl

/-- A byte below `0x80` is one code point on both hosts. -/
lemma peek_octets_of_lt (hr : c.rest = x :: rest) (hx : x < 0x80) :
    Host.peek c.octets = some (Utf8.decode (x :: rest)).char := by
  rw [Utf8.decode_cons_of_lt hx, Readable.peek_eq, Octets.text_eq, octets, hr]
  rfl

end Cursor

section

variable {o : Options} {b : Body} {c : Cursor} {x : UInt8} {rest : List UInt8}

/-- The bytes of a longer code point are passed one by one. -/
lemma reaches_octets (hr : c.rest = x :: rest) (hx : ¬x < 0x80) :
    Reaches o (.body b) c.octets (.body { b with half := .neither })
      (Host.advance false c).octets := by
  let width := (Utf8.decode (x :: rest)).width
  let span := ((x :: rest).take width).map Octets.codePoint
  have hpos := Utf8.width_decode_pos x rest
  have hlength : span.length = width := by
    rw [List.length_map, List.length_take, Nat.min_eq_left (Utf8.width_decode_le _)]
  have hinert : ∀ y ∈ span, Body.Inert y := by
    intro y hy
    obtain ⟨z, hz, rfl⟩ := List.mem_map.1 hy
    exact inert_codePoint (Utf8.le_of_mem_take_decode hx hz)
  have hne : span ≠ [] := List.ne_nil_of_length_pos (hlength ▸ hpos)
  have htext : Readable.text c.octets = span ++ ((x :: rest).drop width).map Octets.codePoint := by
    rw [← List.map_append, List.take_append_drop, Octets.text_eq, Cursor.octets, hr]
  have passed := reaches_trail (o := o) (b := b) htext (Body.passes_of_inert hinert)
  rwa [Body.trail_of_inert hinert hne, hlength, ← Cursor.octets_advance hr] at passed

/-- A code point of several bytes is passed as one. -/
lemma reaches_of_not_lt (hr : c.rest = x :: rest) (hx : ¬x < 0x80) :
    Reaches o (.body b) c (.body { b with half := .neither }) (Host.advance false c) := by
  have hinert : Body.Inert (Utf8.decode (x :: rest)).char := inert_char_decode hx
  rw [← hinert.after_eq]
  apply reaches_after (Cursor.peek_of_rest hr)
  · exact fun hends => hinert.not_closes hends.1
  · exact fun hover => hinert.not_opens hover.1

end

/-- Inside a comment a scan of code points and one of bytes come to the same verdict at the same
offset. -/
theorem run_body_octets (o : Options) (b : Body) (c : Cursor) :
    run o (.body b) c.octets = ((run o (.body b) c).1, (run o (.body b) c).2.octets) := by
  -- One code point may take several steps of bytes, so the induction is on the bytes that are left.
  induction hn : BoundedHost.size c using Nat.strong_induction_on generalizing b c with
  | _ n ih =>
    cases hr : c.rest with
    | nil =>
      have hc : Host.peek c = none := Host.peek_eq_none_iff.2 (by simp [Host.eof, hr])
      have hx : Host.peek c.octets = none :=
        Host.peek_eq_none_iff.2 (by simp [Host.eof, Cursor.octets, hr])
      rw [run_of_stopped (step_of_eof hc), run_of_stopped (step_of_eof hx)]
    | cons x rest =>
      have hpeek := Cursor.peek_of_rest hr
      have hlt := BoundedHost.size_advance_lt false c (Host.eof_eq_false_of_peek hpeek)
      rw [hn] at hlt
      by_cases hx : x < 0x80
      · have hbyte := Cursor.peek_octets_of_lt hr hx
        by_cases hends : b.Ends (Utf8.decode (x :: rest)).char
        · rw [run_of_stopped (step_of_ends hpeek hends), run_of_stopped (step_of_ends hbyte hends),
            Cursor.octets_report hr hx]
        · by_cases hover : b.Overflows o.maxDepth (Utf8.decode (x :: rest)).char
          · obtain ⟨hopens, l, hl, hle⟩ := hover
            rw [run_of_stopped (step_of_overflows hpeek hopens hl hle),
              run_of_stopped (step_of_overflows hbyte hopens hl hle)]
          · rw [(reaches_after hpeek hends hover).run_eq, (reaches_after hbyte hends hover).run_eq,
              ← Cursor.octets_advance_of_lt hr hx]
            exact ih _ hlt _ _ rfl
      · rw [(reaches_octets hr hx).run_eq, (reaches_of_not_lt hr hx).run_eq]
        exact ih _ hlt _ _ rfl

/-- Behind the outer opener a scan does the same on code points and on bytes. -/
lemma run_entering_octets (o : Options) (c : Cursor) :
    run o .entering c.octets = ((run o .entering c).1, (run o .entering c).2.octets) := by
  by_cases hl : Body.Forbids o.maxDepth 0
  · obtain ⟨l, hl, hle⟩ := hl
    rw [run_of_stopped (step_entering_of_forbids hl hle),
      run_of_stopped (step_entering_of_forbids hl hle)]
  · rw [run_of_going (step_entering_of_not_forbids hl),
      run_of_going (step_entering_of_not_forbids hl)]
    exact run_body_octets o .inside c

/-- A cursor that moves stands before the bytes of its input at its offset. -/
lemma octets_of_reaches {o : Options} {p : Phase} {input : List UInt8} {offset : Nat} {d : Cursor}
    (reached : Reaches o .leading (Cursor.atOffset input offset) p d) :
    d.octets = Octets.atOffset input d.position := by
  refine reached.preserves (P := fun d => d.octets = Octets.atOffset input d.position) ?_ rfl
  intro skip d he hd
  obtain ⟨_, position, rest, _, tokenEnd, _⟩ := d
  obtain ⟨rfl, rfl⟩ : rest = input.drop position ∧ tokenEnd = none := by
    simpa [Cursor.octets, Octets.atOffset] using hd
  have hne : (input.drop position).isEmpty = false := he
  simp only [Host.advance, Cursor.advance, hne, Cursor.octets, Octets.atOffset, List.drop_drop]
  rfl

/-- UTF-8 has no say in where a comment ends. From behind the outer opener on a scan of code points
comes to the verdict, the marked end and the offset of a scan that takes each byte for a code point.
-/
theorem scan_octets (o : Options) {input : List UInt8} {offset : Nat} {d : Cursor}
    (reached : Reaches o .leading (Cursor.atOffset input offset) .entering d) :
    let found := Scan.scan o (Cursor.atOffset input offset)
    let raw := Scan.run o .entering (Octets.atOffset input d.position)
    found.1 = raw.1 ∧ found.2.tokenEnd = raw.2.tokenEnd ∧ found.2.position = raw.2.position := by
  intro found raw
  have hraw : raw = (found.1, found.2.octets) := by
    rw [show raw = run o .entering d.octets by rw [octets_of_reaches reached],
      show found = run o .entering d from reached.run_eq]
    exact run_entering_octets o d
  rw [hraw]
  exact ⟨rfl, rfl, rfl⟩

/-- The first byte of a sequence that stands alone before the closer does not hide the closer. -/
theorem scan_octets_of_malformed :
    let input := [0x20, 0x28, 0x2A, 0xE2, 0x2A, 0x29, 0x78]
    let found := Scan.scan {} (Cursor.atOffset input 0)
    ∃ d, Reaches {} .leading (Cursor.atOffset input 0) .entering d ∧ d.position = 3 ∧
      found.1 = .ok ⟨.comment, 1⟩ ∧ found.2.tokenEnd = some 6 ∧ found.2.position = 6 := by
  intro input found
  let c := Cursor.atOffset input 0
  have htext : Readable.text c = [' '] ++ ['(', '*', '\uFFFD', '*', ')', 'x'] := by decide +kernel
  have hblank : ∀ d ∈ [' '], ({} : Options).isWhitespace d := by
    intro d hd
    rw [List.mem_singleton.1 hd]
    rfl
  have reached : Reaches {} .leading c .entering ((Host.advance false)^[2] (Host.advance true c)) :=
    (reaches_blanks htext hblank).trans (reaches_opener (Readable.text_iterate true htext))
  have hraw := scan_octets {} reached
  refine ⟨_, reached, by decide +kernel, ?_, ?_, ?_⟩
  · exact hraw.1.trans (by decide +kernel)
  · exact hraw.2.1.trans (by decide +kernel)
  · exact hraw.2.2.trans (by decide +kernel)

end NestedComment
