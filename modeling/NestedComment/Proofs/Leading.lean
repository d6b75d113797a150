import NestedComment.Proofs.Cursor.Comment
import NestedComment.Proofs.Scan.Failure
import NestedComment.Proofs.Scan.Simulation

/-!
# Blanks before a comment

Blanks before a comment are skipped, and nothing else is made of them. A cursor behind some bytes is
`Shifted` against a cursor of an input without them, and no scan can tell the two apart
(`simulation_shifted`), so blanks before an input shift its scan and change nothing else
(`scan_encode_append`). Which code points are blanks is asked nowhere but before the comment, so the
choice of the blanks makes a difference only where a scan meets a code point that is a blank in one
choice alone (`run_ascii`). `scan_ascii` compares the two scans of a cursor.
-/

namespace NestedComment

universe u

open Scan

namespace Cursor

/-- A cursor stands where another one does, in an input with some bytes more at its front. -/
structure Shifted (front : List UInt8) (c d : Cursor) : Prop where
  input_eq : c.input = front ++ d.input
  position_eq : c.position = d.position + front.length
  rest_eq : c.rest = d.rest
  tokenStart_eq : c.tokenStart = d.tokenStart + front.length
  tokenEnd_eq : c.tokenEnd = d.tokenEnd.map (· + front.length)
  symbol_eq : c.symbol = d.symbol

section

variable {front : List UInt8} {c d : Cursor}

/-- Shifted cursors have the same code point ahead. -/
lemma Shifted.ahead_eq (shifted : Shifted front c d) : c.ahead = d.ahead := by
  rw [ahead, shifted.rest_eq, ahead]

/-- Shifted cursors come to the end of the input together. -/
lemma Shifted.eof_eq (shifted : Shifted front c d) : Host.eof c = Host.eof d :=
  congrArg List.isEmpty shifted.rest_eq

/-- Shifted cursors see the same code point. -/
lemma Shifted.peek_eq (shifted : Shifted front c d) : Host.peek c = Host.peek d := by
  have hchar : Host.lookahead c = Host.lookahead d := congrArg Utf8.Decoded.char shifted.ahead_eq
  rw [Host.peek, Host.peek, shifted.eof_eq, hchar]

/-- Shifted cursors stay so when both move. -/
lemma Shifted.advance (shifted : Shifted front c d) (skip : Bool) (he : Host.eof c = false) :
    Shifted front (c.advance skip) (d.advance skip) := by
  have moved : c.position + c.ahead.width = d.position + d.ahead.width + front.length := by
    rw [shifted.position_eq, shifted.ahead_eq, Nat.add_right_comm]
  rw [advance_eq skip he, advance_eq skip (shifted.eof_eq.symm.trans he)]
  refine ⟨shifted.input_eq, moved, ?_, ?_, shifted.tokenEnd_eq, shifted.symbol_eq⟩
  · show c.rest.drop c.ahead.width = d.rest.drop d.ahead.width
    rw [shifted.rest_eq, shifted.ahead_eq]
  · cases skip with
    | false => exact shifted.tokenStart_eq
    | true => exact moved

/-- No scan can tell a cursor from a shifted one. -/
theorem simulation_shifted (front : List UInt8) : Simulation (Shifted front) where
  peek shifted := shifted.peek_eq
  advance skip _ _ shifted he := shifted.advance skip he
  markEnd shifted := ⟨shifted.input_eq, shifted.position_eq, shifted.rest_eq,
    shifted.tokenStart_eq, congrArg some shifted.position_eq, shifted.symbol_eq⟩
  setSymbol _ _ _ shifted := ⟨shifted.input_eq, shifted.position_eq, shifted.rest_eq,
    shifted.tokenStart_eq, shifted.tokenEnd_eq, rfl⟩
  eof_setSymbol _ _ _ _ := rfl

/-- A span is the same bytes with others at the front of the input. -/
lemma span_append (front input : List UInt8) (start stop : Nat) :
    span (front ++ input) (start + front.length) (stop + front.length) = span input start stop := by
  rw [span, span, Nat.add_comm start, List.drop_length_add_append, Nat.add_comm front.length,
    Nat.add_sub_add_right]

/-- If the token does not end before it starts its bytes are the same. -/
lemma Shifted.token_eq (shifted : Shifted front c d)
    (hle : ∀ stop ∈ d.tokenEnd, d.tokenStart ≤ stop) : c.token = d.token := by
  rw [token, token, shifted.symbol_eq, shifted.tokenEnd_eq]
  cases d.symbol with
  | none => rfl
  | some s =>
    cases hend : d.tokenEnd with
    | none => rfl
    | some stop =>
      have hstart : d.tokenStart ≤ stop := hle stop hend
      have hstart' : c.tokenStart ≤ stop + front.length := by
        rw [shifted.tokenStart_eq]
        exact Nat.add_le_add_right hstart _
      simp only [Option.map_some, if_pos hstart, if_pos hstart']
      rw [shifted.input_eq, shifted.tokenStart_eq, span_append]

/-- A scan from a new cursor marks no end before the start of its token. -/
lemma tokenStart_le_of_scan_ofInput (o : Options) (input : List UInt8) :
    let d := (scan o (ofInput input)).2
    ∀ stop ∈ d.tokenEnd, d.tokenStart ≤ stop := by
  intro d stop hstop
  obtain ⟨v, e, hs⟩ : ∃ v e, scan o (ofInput input) = (v, e) := ⟨_, _, rfl⟩
  rw [show d = e from congrArg Prod.snd hs] at hstop ⊢
  cases v with
  | ok t =>
    obtain ⟨sound, hend, -⟩ := comment_of_scan (Nat.zero_le _) hs
    cases hend.symm.trans hstop
    exact sound.start_lt_stop.le
  | error reason =>
    rw [(kept_of_error hs).1] at hstop
    cases hstop

/-- A new cursor behind some bytes is shifted against one at the start of an input. -/
lemma shifted_atOffset (front s : List UInt8) :
    Shifted front (atOffset (front ++ s) front.length) (ofInput s) := by
  have hle : front.length ≤ (front ++ s).length := by
    rw [List.length_append]
    exact Nat.le_add_right _ _
  have hposition : (atOffset (front ++ s) front.length).position = 0 + front.length := by
    rw [position_atOffset hle, Nat.zero_add]
  refine ⟨rfl, hposition, ?_, hposition, rfl, rfl⟩
  rw [rest_atOffset hle, List.drop_left]
  rfl

/-- Blanks at the start of an input are skipped. -/
lemma reaches_encode {o : Options} {ws : List Char} (hws : ∀ c ∈ ws, o.isWhitespace c)
    (s : List UInt8) :
    Reaches o .leading (ofInput (Utf8.encode ws ++ s)) .leading
      (atOffset (Utf8.encode ws ++ s) (Utf8.encode ws).length) := by
  let c := ofInput (Utf8.encode ws ++ s)
  have htext : Readable.text c = ws ++ (Utf8.decodeAll s).map Utf8.Decoded.char :=
    Utf8.char_decodeAll_encode ws s
  have hoffset : c.offsetAt ws.length = (Utf8.encode ws).length :=
    (Nat.zero_add _).trans (Utf8.sum_width_encode ws s)
  have skipped := reaches_blanks htext hws
  rwa [show (Host.advance true)^[ws.length] c = _ from iterate_advance_true _ 0 ws.length,
    show (atOffset (Utf8.encode ws ++ s) 0).offsetAt ws.length = _ from hoffset] at skipped

end

end Cursor

/-- Blanks before an input shift the scan of it, and change nothing else. -/
theorem scan_encode_append {o : Options} {ws : List Char} (hws : ∀ c ∈ ws, o.isWhitespace c)
    (s : List UInt8) :
    let behind := scan o (Cursor.ofInput (Utf8.encode ws ++ s))
    let alone := scan o (Cursor.ofInput s)
    behind.1 = alone.1 ∧ behind.2.Shifted (Utf8.encode ws) alone.2 ∧
      Host.lookahead behind.2 = Host.lookahead alone.2 ∧ Host.eof behind.2 = Host.eof alone.2 ∧
      behind.2.token = alone.2.token := by
  intro behind alone
  obtain ⟨hverdict, shifted⟩ := (Cursor.simulation_shifted _).run o .leading
    (Cursor.shifted_atOffset (Utf8.encode ws) s)
  have hbehind : behind = _ := (Cursor.reaches_encode hws s).run_eq
  rw [← hbehind] at hverdict shifted
  exact ⟨hverdict, shifted, congrArg Utf8.Decoded.char shifted.ahead_eq, shifted.eof_eq,
    shifted.token_eq (Cursor.tokenStart_le_of_scan_ofInput o s)⟩

/-- Blanks of one, two and three bytes before a comment with a malformed byte. -/
theorem scan_encode_append_of_mixed :
    let ws := ['\x0B', '\u0085', '\u3000']
    let s : List UInt8 := [0x28, 0x2A, 0xE2, 0x2A, 0x29, 0x80]
    let behind := scan {} (Cursor.ofInput (Utf8.encode ws ++ s))
    (∀ c ∈ ws, ({} : Options).isWhitespace c) ∧ behind.1 = .ok ⟨.comment, 1⟩ ∧
      behind.2.tokenStart = 6 ∧ behind.2.tokenEnd = some 11 ∧
      behind.2.token = .ok (some [0x28, 0x2A, 0xE2, 0x2A, 0x29]) ∧ behind.2.rest = [0x80] := by
  intro ws s behind
  have hws : ∀ c ∈ ws, ({} : Options).isWhitespace c :=
    List.forall_mem_cons.2 ⟨by decide, List.forall_mem_cons.2 ⟨by decide,
      List.forall_mem_singleton.2 (by decide)⟩⟩
  obtain ⟨hverdict, shifted, -, -, htoken⟩ := scan_encode_append hws s
  refine ⟨hws, ?_, ?_, ?_, ?_, ?_⟩
  · exact hverdict.trans (by decide +kernel)
  · exact shifted.tokenStart_eq.trans (by decide +kernel)
  · exact shifted.tokenEnd_eq.trans (by decide +kernel)
  · exact htoken.trans (by decide +kernel)
  · exact shifted.rest_eq.trans (by decide +kernel)

namespace Options

/-- The same options with only the ASCII blanks skipped. -/
def ascii (o : Options) : Options := { o with asciiWhitespaceOnly := true }

/-- The same options with every Unicode blank skipped. -/
def unicode (o : Options) : Options := { o with asciiWhitespaceOnly := false }

end Options

/-- A code point is a Unicode blank, but no ASCII blank. -/
structure Whitespace.Contested (c : Char) : Prop where
  isBlank : Whitespace.isBlank c = true
  not_isAsciiBlank : Whitespace.isAsciiBlank c = false

namespace Scan

section

variable {o : Options}

/-- A code point before which there is no comment is no blank. -/
lemma isWhitespace_of_abstain {p : Phase} {seen : Option Char} {c : Char}
    (hr : p.react o seen = .abstain (.notAComment (some c))) : o.isWhitespace c = false := by
  cases Phase.fails_of_abstain hr with
  | notAComment _ =>
    by_contra hblank
    rw [Phase.react, if_pos (Bool.eq_true_of_not_eq_false hblank)] at hr
    cases hr

/-- The choice of the blanks makes a difference only to a contested code point before the comment.
-/
lemma react_ascii (o : Options) (p : Phase) (seen : Option Char) :
    p.react o.ascii seen = p.react o.unicode seen ∨ ∃ c, Whitespace.Contested c ∧
      p = .leading ∧ seen = some c ∧ p.react o.ascii seen = .abstain (.notAComment (some c)) ∧
      p.react o.unicode seen = .consume true .leading := by
  cases p with
  | leading =>
    cases seen with
    | none => exact .inl rfl
    | some c =>
      have hascii : o.ascii.isWhitespace c = Whitespace.isAsciiBlank c := rfl
      have hunicode : o.unicode.isWhitespace c = Whitespace.isBlank c := rfl
      rw [Phase.react, Phase.react, hascii, hunicode]
      cases ha : Whitespace.isAsciiBlank c with
      | true =>
        rw [Whitespace.isBlank_of_isAsciiBlank ha]
        exact .inl rfl
      | false =>
        cases hu : Whitespace.isBlank c with
        | false => exact .inl rfl
        | true =>
          have hparen : c ≠ '(' := by
            rintro rfl
            exact absurd hu (by decide)
          exact .inr ⟨c, ⟨hu, ha⟩, rfl, rfl, if_neg hparen, rfl⟩
  | opening => cases seen <;> exact .inl rfl
  | entering => exact .inl rfl
  | body b => exact .inl rfl

section

variable {σ : Type u} [BoundedHost σ] {h g : σ} {p : Phase}

/-- A step with ASCII blanks is the one with all blanks, or it stops before a contested code point.
-/
lemma step_ascii (o : Options) (p : Phase) (h : σ) :
    step o.ascii p h = step o.unicode p h ∨ ∃ c, Whitespace.Contested c ∧
      step o.ascii p h = .stopped (.error (.notAComment (some c))) h ∧ Host.eof h = false ∧
      step o.unicode p h = .going .leading (Host.advance true h) := by
  rcases react_ascii o p (Host.peek h) with he | ⟨c, hc, -, hpeek, hascii, hunicode⟩
  · exact .inl (congrArg (perform h) he)
  · exact .inr ⟨c, hc, congrArg (perform h) hascii, Host.eof_eq_false_of_peek hpeek,
      congrArg (perform h) hunicode⟩

/-- Either no contested code point stands before the comment, and both scans are one, or the scan
that skips only ASCII blanks stops at the first of them, where the other scan goes on. -/
theorem run_ascii (o : Options) (p : Phase) (h : σ) :
    (run o.ascii p h = run o.unicode p h ∧
      ∀ c, Whitespace.Contested c → (run o.unicode p h).1 ≠ .error (.notAComment (some c))) ∨
    ∃ c g, Whitespace.Contested c ∧ run o.ascii p h = (.error (.notAComment (some c)), g) ∧
      Host.eof g = false ∧ Reaches o.unicode p h .leading (Host.advance true g) := by
  fun_induction run o.unicode p h with
  | case1 p h v g hs =>
    rcases step_ascii o p h with he | ⟨c, -, -, -, hgoing⟩
    · refine .inl ⟨run_of_stopped (he.trans hs), ?_⟩
      rintro c hc rfl
      rcases step_stopped_cases hs with ⟨reason, hr, hv, -⟩ | ⟨final, -, -, hv, -⟩
      · cases hv
        have hblank := isWhitespace_of_abstain hr
        exact absurd hc.isBlank (Bool.eq_false_iff.1 hblank)
      · cases hv
    · cases hs.symm.trans hgoing
  | case2 p h q g hs ih =>
    rcases step_ascii o p h with he | ⟨c, hc, hstop, heof, hgoing⟩
    · have hascii : step o.ascii p h = .going q g := he.trans hs
      rcases ih with ⟨hrun, hnone⟩ | ⟨c, k, hc, hrun, heof, reached⟩
      · exact .inl ⟨(run_of_going hascii).trans hrun, hnone⟩
      · exact .inr ⟨c, k, hc, (run_of_going hascii).trans hrun, heof, .go hs reached⟩
    · exact .inr ⟨c, h, hc, run_of_stopped hstop, heof, .single hgoing⟩

end

end

end Scan

/-- To skip only ASCII blanks can only turn a scan into one that finds no comment. Unless it stops
before a contested code point the scan comes to the same as with all blanks, and leaves the same
cursor. If it does, the scan with all blanks gets further. So a token that is found with ASCII
blanks only is found with all. -/
theorem scan_ascii (o : Options) (input : List UInt8) (offset : Nat) :
    let c := Cursor.atOffset input offset
    let ascii := Scan.scan o.ascii c
    let unicode := Scan.scan o.unicode c
    ((∀ x, Whitespace.Contested x → ascii.1 ≠ .error (.notAComment (some x))) → ascii = unicode) ∧
    (∀ x, Whitespace.Contested x → ascii.1 = .error (.notAComment (some x)) →
      ascii.2.position < unicode.2.position) ∧
    ∀ t, ascii.1 = .ok t → unicode = ascii := by
  intro c ascii unicode
  rcases run_ascii o .leading c with ⟨hrun, hnone⟩ | ⟨x, g, hx, hrun, heof, reached⟩
  · have hsame : ascii = unicode := hrun
    refine ⟨fun _ => hsame, ?_, fun _ _ => hsame.symm⟩
    intro x hx hascii
    rw [hsame] at hascii
    exact absurd hascii (hnone x hx)
  · have hascii : ascii = (.error (.notAComment (some x)), g) := hrun
    have hunicode : unicode = run o.unicode .leading (g.advance true) := reached.run_eq
    have hlt : g.position < unicode.2.position := by
      rw [hunicode]
      exact (Cursor.position_lt_advance true heof).trans_le (Cursor.position_le_run _ _ _)
    rw [hascii]
    refine ⟨fun hother => absurd rfl (hother x hx), fun _ _ _ => hlt, ?_⟩
    rintro t ⟨⟩

end NestedComment
