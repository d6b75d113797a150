import Mathlib.Data.List.Basic
import NestedComment.Check
import NestedComment.Proofs.Cursor.Lexemes
import NestedComment.Proofs.Octets
import NestedComment.Proofs.Utf8.Encode

/-!
# The bytes of a comment

Where a comment ends is told by its own bytes, whatever follows them. A text `Completes` a state of
the machine if its last code point, and none before it, stops the machine with a token; such a text
is what a scan that finds a token has passed (`completes_of_run`), and is passed by every scan that
comes to it (`run_of_completes`). `IsComment` says so of bytes that start with an opener. A scan
that finds a token has found the bytes of a comment (`isComment_of_scan`), and a scan that comes to
the bytes of a comment finds them (`scan_of_isComment`).
-/

namespace NestedComment

open Scan

universe u

namespace Scan

/-- The last code point of a text, and none before it, ends the outermost comment, and no comment in
the text is one too many. -/
inductive Body.Completes (limit : Option UInt64) : Body → List Char → Token → Prop where
  | last {b : Body} {c : Char} : b.Ends c → Completes limit b [c] ⟨.comment, b.deepest⟩
  | cons {b : Body} {c : Char} {cs : List Char} {t : Token} :
    ¬b.Ends c → ¬b.Overflows limit c → Completes limit (b.after c) cs t →
    Completes limit b (c :: cs) t

/-- Only a closer ends a comment, and its star may stand before the text. -/
lemma Body.Completes.closer {limit : Option UInt64} {b : Body} {cs : List Char} {t : Token}
    (completes : b.Completes limit cs t) :
    b.half = .closer ∧ cs = [')'] ∨ ∃ ds, cs = ds ++ ['*', ')'] := by
  induction completes with
  | last hends =>
    obtain ⟨⟨hhalf, rfl⟩, -⟩ := hends
    exact .inl ⟨hhalf, rfl⟩
  | @cons b c cs t _ _ _ ih =>
    rcases ih with ⟨hhalf, rfl⟩ | ⟨ds, rfl⟩
    · rw [half_after, halfOf_eq_closer] at hhalf
      exact .inr ⟨[], by rw [hhalf]; rfl⟩
    · exact .inr ⟨c :: ds, rfl⟩

section

variable {σ : Type u} [BoundedHost σ] {o : Options} {b : Body} {h g : σ} {cs rest : List Char}
  {t : Token}

/-- A scan that finds a token behind the opener was allowed to enter the comment. -/
lemma inside_of_run_entering (hrun : run o .entering h = (.ok t, g)) :
    ¬Body.Forbids o.maxDepth 0 ∧ run o (.body .inside) h = (.ok t, g) := by
  have hlimit : ¬Body.Forbids o.maxDepth 0 := by
    rintro ⟨l, hl, hle⟩
    rw [run_of_stopped (step_entering_of_forbids hl hle)] at hrun
    cases hrun
  rw [run_of_going (step_entering_of_not_forbids hlimit)] at hrun
  exact ⟨hlimit, hrun⟩

variable [Readable σ]

/-- A text that completes the comment is passed, and the token reported, whatever follows it. -/
theorem run_of_completes (ht : Readable.text h = cs ++ rest)
    (completes : b.Completes o.maxDepth cs t) :
    ∃ n, cs.length = n + 1 ∧
      run o (.body b) h = (.ok t, report ((Host.advance false)^[n] h)) := by
  induction completes generalizing h with
  | last hends =>
    exact ⟨0, rfl, run_of_stopped (step_of_ends (Readable.peek_of_text ht) hends)⟩
  | cons hends hover _ ih =>
    obtain ⟨n, hlength, hrun⟩ := ih (Readable.text_of_advance false ht)
    refine ⟨n + 1, congrArg (· + 1) hlength, ?_⟩
    rw [(reaches_after (Readable.peek_of_text ht) hends hover).run_eq, hrun]
    rfl

/-- A scan that finds a token has passed a text that completes the comment. -/
theorem completes_of_run (hrun : run o (.body b) h = (.ok t, g)) :
    ∃ cs rest, Readable.text h = cs ++ rest ∧ b.Completes o.maxDepth cs t := by
  generalize htext : Readable.text h = text
  induction text generalizing b h with
  | nil =>
    rw [run_of_stopped (step_of_eof (Readable.peek_of_nil htext))] at hrun
    cases hrun
  | cons c text ih =>
    have hpeek := Readable.peek_of_text htext
    by_cases hends : b.Ends c
    · rw [run_of_stopped (step_of_ends hpeek hends)] at hrun
      cases hrun
      exact ⟨[c], text, rfl, .last hends⟩
    · by_cases hover : b.Overflows o.maxDepth c
      · obtain ⟨hopens, l, hl, hle⟩ := hover
        rw [run_of_stopped (step_of_overflows hpeek hopens hl hle)] at hrun
        cases hrun
      · rw [(reaches_after hpeek hends hover).run_eq] at hrun
        obtain ⟨cs, rest, rfl, completes⟩ := ih hrun (Readable.text_of_advance false htext)
        exact ⟨c :: cs, rest, rfl, .cons hends hover completes⟩

end

end Scan

namespace Utf8

variable (cs : List Char) (rest : List UInt8)

/-- An encoding is read on its own, whatever follows it. -/
lemma decodeAll_encode_append :
    decodeAll (encode cs ++ rest) = cs.map (fun c => ⟨c, c.utf8Size⟩) ++ decodeAll rest := by
  induction cs with
  | nil => rfl
  | cons c cs ih =>
    have hne : encode (c :: cs) ++ rest ≠ [] := List.append_ne_nil_of_left_ne_nil encode_cons_ne_nil _
    rw [decodeAll_of_ne_nil hne, encode_cons, List.append_assoc, decode_encode, List.map_cons,
      List.cons_append, ← ih, List.drop_left' (String.length_utf8EncodeChar c)]

/-- Encoded code points are decoded to themselves, whatever follows them. -/
lemma char_decodeAll_encode : (decodeAll (encode cs ++ rest)).map Decoded.char =
    cs ++ (decodeAll rest).map Decoded.char := by
  rw [decodeAll_encode_append, List.map_append, List.map_map]
  exact congrArg (· ++ _) (List.map_id cs)

/-- The widths of the code points of an encoding make up its bytes. -/
lemma sum_width_encode :
    (((decodeAll (encode cs ++ rest)).take cs.length).map Decoded.width).sum =
      (encode cs).length := by
  have halone := decodeAll_encode_append cs []
  rw [List.append_nil, decodeAll_nil, List.append_nil] at halone
  rw [decodeAll_encode_append, List.take_left' (List.length_map _), ← halone, sum_width_decodeAll]

end Utf8

/-- The bytes of one comment, from its opener to its closer, and the token that they make. -/
inductive IsComment (o : Options) : List UInt8 → Token → Prop where
  | intro {body : List UInt8} {t : Token} : ¬Body.Forbids o.maxDepth 0 →
    Body.inside.Completes o.maxDepth (Octets.codePoints body) t →
    IsComment o (0x28 :: 0x2A :: body) t

section

variable {o : Options} {bytes : List UInt8} {t : Token}

/-- A comment begins with its opener. -/
lemma IsComment.opener (comment : IsComment o bytes t) : Check.opener <+: bytes := by
  obtain ⟨-, -⟩ := comment
  exact List.prefix_append Check.opener _

/-- A comment ends with its closer. -/
lemma IsComment.closer (comment : IsComment o bytes t) : Check.closer <:+ bytes := by
  cases comment with
  | @intro body _ _ completes =>
    rcases completes.closer with ⟨hhalf, -⟩ | ⟨ds, hds⟩
    · cases hhalf
    · obtain ⟨front, back, rfl, -, hback⟩ := List.map_eq_append_iff.1 hds
      have hcloser : back = Check.closer :=
        List.map_injective_iff.2 Octets.codePoint_injective hback
      rw [hcloser]
      exact List.suffix_append (0x28 :: 0x2A :: front) Check.closer

end

namespace Cursor

/-- A cursor knows of a token that starts at an offset and has these bytes, and stands behind it. -/
structure Holds (d : Cursor) (start : Nat) (bytes : List UInt8) : Prop where
  tokenStart_eq : d.tokenStart = start
  tokenEnd_eq : d.tokenEnd = some (start + bytes.length)
  position_eq : d.position = start + bytes.length
  token_eq : d.token = .ok (some bytes)

section

variable {c d : Cursor} {x : UInt8} {rest : List UInt8}

/-- A cursor before encoded code points reads them. -/
lemma text_of_encode {cs : List Char} (hr : c.rest = Utf8.encode cs) : Readable.text c = cs := by
  have hchar := Utf8.char_decodeAll_encode cs []
  rw [List.append_nil, Utf8.decodeAll_nil, List.map_nil, List.append_nil] at hchar
  rw [text_eq, hr, hchar]

/-- A code point below `0x80` is read from one byte. -/
lemma rest_of_peek (hx : x < 0x80) (hpeek : Host.peek c = some (Octets.codePoint x)) :
    ∃ rest, c.rest = x :: rest ∧ (Host.advance false c).rest = rest := by
  cases hr : c.rest with
  | nil =>
    have htext : Readable.text c = [] := by
      rw [text_eq, hr, Utf8.decodeAll_nil]
      rfl
    rw [Readable.peek_of_nil htext] at hpeek
    cases hpeek
  | cons y rest =>
    rw [peek_of_rest hr] at hpeek
    have hchar := Option.some.inj hpeek
    have hy : y < 0x80 := by
      by_contra hy
      refine Utf8.char_decode_ne hy ?_ hchar
      rwa [Octets.toNat_codePoint]
    rw [Utf8.decode_cons_of_lt hy] at hchar
    have hxy : y = x := Octets.codePoint_injective hchar
    have moved : (Host.advance false c).octets.rest = (Host.advance false c.octets).rest := by
      rw [octets_advance_of_lt hr hy]
    rw [octets, octets, hr] at moved
    exact ⟨rest, by rw [hxy], moved⟩

end

section

variable {o : Options} {c d : Cursor} {t : Token} {bytes rest tail : List UInt8}

/-- From its opener on a comment is passed, whatever follows it. -/
lemma run_of_isComment (hr : c.rest = bytes ++ tail) (comment : IsComment o bytes t) :
    ∃ d, run o .entering ((Host.advance false)^[2] c) = (.ok t, d) ∧
      d.position = c.position + bytes.length := by
  obtain @⟨body, _, hlimit, completes⟩ := comment
  let x : Octets := ⟨c.position + 2, body ++ tail, c.tokenEnd⟩
  have hraw := run_entering_octets o ((Host.advance false)^[2] c)
  rw [octets_behind_opener hr, run_of_going (step_entering_of_not_forbids hlimit)] at hraw
  have htext : Readable.text x = Octets.codePoints body ++ Octets.codePoints tail := List.map_append
  obtain ⟨n, hlength, hrun⟩ := run_of_completes htext completes
  rw [Octets.length_codePoints] at hlength
  have hroom : n + 1 ≤ x.rest.length := by
    rw [← hlength]
    exact List.length_append.symm ▸ Nat.le_add_right _ _
  obtain ⟨hverdict, hleft⟩ := Prod.mk.inj (hraw.symm.trans hrun)
  refine ⟨_, Prod.ext hverdict rfl, ?_⟩
  have hposition := (Octets.report_iterate hroom).1
  rw [← hleft] at hposition
  rw [show (run o .entering ((Host.advance false)^[2] c)).2.position = _ from hposition,
    List.length_cons, List.length_cons, hlength]
  show c.position + 2 + (n + 1) = c.position + (n + 1 + 1 + 1)
  omega

/-- A scan that finds a token behind an opener has found the bytes of a comment. -/
lemma isComment_of_run (hr : c.rest = 0x28 :: 0x2A :: rest)
    (hrun : run o .entering ((Host.advance false)^[2] c) = (.ok t, d)) :
    ∃ bytes tail, c.rest = bytes ++ tail ∧ IsComment o bytes t := by
  have hraw := run_entering_octets o ((Host.advance false)^[2] c)
  rw [octets_behind_opener hr, hrun] at hraw
  obtain ⟨hlimit, hinside⟩ := inside_of_run_entering hraw
  obtain ⟨cs, ds, htext, completes⟩ := completes_of_run hinside
  obtain ⟨body, tail, rfl, rfl, rfl⟩ := List.map_eq_append_iff.1 htext
  exact ⟨0x28 :: 0x2A :: body, tail, hr, .intro hlimit completes⟩

/-- A scan from behind the blanks that finds a token has passed an opener. -/
lemma opener_of_scan (hblank : ∀ x ∈ Host.peek c, ¬o.isWhitespace x)
    (hs : scan o c = (.ok t, d)) :
    ∃ rest, c.rest = 0x28 :: 0x2A :: rest ∧
      run o .entering ((Host.advance false)^[2] c) = (.ok t, d) := by
  by_cases hparen : Host.peek c = some '('
  · rw [scan, run_of_going (step_leading_of_paren hparen)] at hs
    by_cases hstar : Host.peek (Host.advance false c) = some '*'
    · rw [run_of_going (step_opening_of_star hstar)] at hs
      obtain ⟨rest, hr, hrest⟩ := rest_of_peek (x := 0x28) (by decide) hparen
      obtain ⟨rest', hr', -⟩ := rest_of_peek (x := 0x2A) (by decide) hstar
      exact ⟨rest', by rw [hr, ← hrest, hr'], hs⟩
    · rw [run_of_stopped (step_opening_of_other hstar)] at hs
      cases hs
  · rw [scan, run_of_stopped (step_leading_of_other hblank hparen)] at hs
    cases hs

end

section

variable {o : Options} {input : List UInt8} {start : Nat} {t : Token} {d : Cursor}
  {bytes tail : List UInt8}

/-- A new cursor stands before the bytes from its offset on. -/
lemma rest_atOffset (h : start ≤ input.length) : (atOffset input start).rest = input.drop start := by
  rw [(placed_atOffset input start).rest_eq, position_atOffset h]
  rfl

/-- The bytes between the start of the token and the cursor are its token. -/
lemma holds_of_scan (h : start ≤ input.length) (hs : scan o (atOffset input start) = (.ok t, d))
    (hdrop : input.drop d.tokenStart = bytes ++ tail)
    (hstop : d.position = d.tokenStart + bytes.length) : d.Holds d.tokenStart bytes := by
  obtain ⟨-, hend, htoken, -⟩ := comment_of_scan h hs
  refine ⟨rfl, ?_, hstop, ?_⟩
  · rw [hend, ← hstop]
  · rw [htoken, Lexeme.bytes, span, hdrop, hstop, Nat.add_sub_cancel_left, List.take_left]

/-- What a scan finds is a comment. -/
theorem isComment_of_scan (h : start ≤ input.length)
    (hs : scan o (atOffset input start) = (.ok t, d)) :
    ∃ bytes tail, input.drop d.tokenStart = bytes ++ tail ∧ IsComment o bytes t ∧
      d.Holds d.tokenStart bytes := by
  obtain ⟨-, hle, -, hagain, hblank⟩ := skipped_of_scan h hs
  obtain ⟨rest, hr, hrun⟩ := opener_of_scan hblank hagain
  obtain ⟨bytes, tail, hbytes, comment⟩ := isComment_of_run hr hrun
  obtain ⟨d', hrun', hposition⟩ := run_of_isComment hbytes comment
  cases hrun.symm.trans hrun'
  rw [position_atOffset hle] at hposition
  rw [rest_atOffset hle] at hbytes
  exact ⟨bytes, tail, hbytes, comment, holds_of_scan h hs hbytes hposition⟩

/-- If the token is the whole input then that is a comment. -/
lemma isComment_of_token (hs : scan o (ofInput input) = (.ok t, d))
    (htoken : d.token = .ok (some input)) : IsComment o input t := by
  obtain ⟨bytes, -, -, comment, holds⟩ := isComment_of_scan (Nat.zero_le _) hs
  cases htoken.symm.trans holds.token_eq
  exact comment

variable {ws : List Char}

/-- A comment behind blanks is found, whatever follows it. -/
theorem scan_of_isComment (h : start ≤ input.length)
    (hdrop : input.drop start = Utf8.encode ws ++ (bytes ++ tail))
    (hws : ∀ c ∈ ws, o.isWhitespace c) (comment : IsComment o bytes t) :
    ∃ d, scan o (atOffset input start) = (.ok t, d) ∧
      d.Holds (start + (Utf8.encode ws).length) bytes := by
  let c := atOffset input start
  -- The blanks are skipped, and the comment starts at `e`.
  let e := (Host.advance true)^[ws.length] c
  have hr : c.rest = Utf8.encode ws ++ (bytes ++ tail) := (rest_atOffset h).trans hdrop
  have htext : Readable.text c = ws ++ (Utf8.decodeAll (bytes ++ tail)).map Utf8.Decoded.char := by
    rw [text_eq, hr, Utf8.char_decodeAll_encode]
  have hposition : e.position = start + (Utf8.encode ws).length := by
    rw [position_iterate, offsetAt, hr, Utf8.sum_width_encode, position_atOffset h]
  have he : e.rest = bytes ++ tail := by
    rw [((placed_atOffset input start).iterate true _).rest_eq, input_iterate, hposition]
    show input.drop _ = _
    rw [← List.drop_drop, hdrop, List.drop_left]
  obtain ⟨d, hrun, hstop⟩ := run_of_isComment he comment
  have reached : Reaches o .leading c .entering ((Host.advance false)^[2] e) := by
    obtain ⟨body, rfl⟩ := comment.opener
    exact (reaches_blanks htext hws).trans (reaches_opener (text_of_opener he))
  have hs : scan o c = (.ok t, d) := reached.run_eq.trans hrun
  have hstart : d.tokenStart = e.position := by
    have hkept := tokenStart_run_inside o (p := .entering) trivial ((Host.advance false)^[2] e)
    rw [hrun, tokenStart_iterate_false] at hkept
    exact hkept.trans ((tokenStart_iterate_true rfl _).trans (position_iterate true c _).symm)
  refine ⟨d, hs, ?_⟩
  rw [← hposition, ← hstart]
  apply holds_of_scan h hs
  · rw [hstart, hposition, ← List.drop_drop, hdrop, List.drop_left]
  · rw [hstop, hstart]

end

end Cursor

end NestedComment
