import NestedComment.Cursor.Progress
import NestedComment.Proofs.Cursor.Text

/-!
# What a scan leaves of a cursor

A cursor is `Placed` if it stands inside its input, before the bytes at its offset. Moving keeps it
placed and so does a scan (`Placed.scan`), which keeps the input as well. Blanks that are skipped
take the start of the token along and nothing else does (`tokenStart_scan`). To skip them before a
scan from a new cursor makes no difference (`scan_atOffset`).
-/

namespace NestedComment

open Scan

namespace Cursor

section

variable {c : Cursor} {n : Nat}

/-- A cursor stays in its input when it moves. -/
lemma Placed.advance (placed : c.Placed) (skip : Bool) : (c.advance skip).Placed := by
  have hlength := placed.length_eq
  have hwidth : c.ahead.width ≤ c.rest.length := Utf8.width_decode_le c.rest
  rw [Cursor.advance]
  split
  · exact placed
  · refine ⟨?_, ?_⟩
    · show c.position + c.ahead.width ≤ c.input.length
      omega
    · show c.rest.drop c.ahead.width = c.input.drop (c.position + c.ahead.width)
      rw [placed.rest_eq, List.drop_drop]

/-- A cursor stays in its input however often it moves. -/
lemma Placed.iterate (placed : c.Placed) (skip : Bool) (n : Nat) :
    ((Host.advance skip)^[n] c).Placed := by
  induction n generalizing c with
  | zero => exact placed
  | succ n ih => exact ih (placed.advance skip)

/-- A cursor stays in its input when the end of its token is marked. -/
lemma Placed.markEnd (placed : c.Placed) : c.markEnd.Placed :=
  ⟨placed.position_le, placed.rest_eq⟩

/-- A cursor stays in its input when the symbol of its token is named. -/
lemma Placed.setSymbol (placed : c.Placed) (s : Symbol) : (c.setSymbol s).Placed :=
  ⟨placed.position_le, placed.rest_eq⟩

/-- A cursor that reports a token stays placed. -/
lemma Placed.report (placed : c.Placed) : (report c).Placed :=
  ((placed.setSymbol .comment).advance false).markEnd

/-- A token that is reported at the last code point ends with the input. -/
lemma Placed.tokenEnd_report (placed : c.Placed) (hn : n + 1 = (Readable.text c).length) :
    (Scan.report ((Host.advance false)^[n] c)).tokenEnd = some c.input.length := by
  have hposition := position_iterate false c (n + 1)
  rw [Function.iterate_succ_apply', hn, offsetAt_length_text, placed.length_eq] at hposition
  rw [report_eq]
  exact congrArg some hposition

/-- Wherever a scan gets to, the cursor stays in the same input, and placed. -/
lemma Placed.reaches {o : Options} {p q : Phase} {d : Cursor} (placed : c.Placed)
    (reached : Reaches o p c q d) : d.input = c.input ∧ d.Placed :=
  reached.preserves (P := fun d : Cursor => d.input = c.input ∧ d.Placed)
    (fun skip d _ hd => ⟨(input_advance skip d).trans hd.1, hd.2.advance skip⟩) ⟨rfl, placed⟩

/-- A scan leaves a cursor in the same input, and placed. -/
theorem Placed.scan (placed : c.Placed) (o : Options) :
    (Scan.scan o c).2.input = c.input ∧ (Scan.scan o c).2.Placed := by
  obtain ⟨v, d, hs⟩ : ∃ v d, Scan.scan o c = (v, d) := ⟨_, _, rfl⟩
  obtain ⟨q, k, reached, hstop⟩ := stopped_of_returns (returns_iff_run.2 hs)
  obtain ⟨hinput, placed'⟩ := placed.reaches reached
  rw [hs]
  rcases step_stopped_cases hstop with ⟨reason, -, -, rfl⟩ | ⟨final, -, -, -, rfl⟩
  · exact ⟨hinput, placed'⟩
  · exact ⟨(input_report k).trans hinput, placed'.report⟩

/-- A scan never moves a cursor back. -/
lemma position_le_run (o : Options) (p : Phase) (c : Cursor) :
    c.position ≤ (run o p c).2.position := by
  rcases run_preserves (o := o) (P := fun d : Cursor => c.position ≤ d.position)
    (fun skip d _ hd => hd.trans (position_le_advance skip d)) p c le_rfl with
    ⟨reason, -, hd⟩ | ⟨t, g, hrun, -, hg⟩
  · exact hd
  · rw [hrun, report_eq]
    exact hg.trans (position_le_advance false g)

/-- The token that a scan finds is the bytes from its start up to the cursor. -/
theorem token_of_scan {o : Options} {c d : Cursor} {t : Token} (h : Scan.scan o c = (.ok t, d))
    (hle : d.tokenStart ≤ d.position) :
    d.token = .ok (some (span d.input d.tokenStart d.position)) := by
  rcases run_preserves (o := o) (P := fun _ : Cursor => True) (fun _ _ _ _ => trivial) .leading c
    trivial with ⟨reason, hfound, -⟩ | ⟨t', g, hfound, -, -⟩
  · rw [← Scan.scan, h] at hfound
    cases hfound
  · rw [← Scan.scan, h] at hfound
    cases hfound
    rw [tokenStart_report] at hle
    rw [token_report hle, tokenStart_report, input_report]

/-- Behind the outer opener the start of the token stays where it is. -/
lemma tokenStart_run_inside (o : Options) {p : Phase} (hp : p.Inside) (c : Cursor) :
    (run o p c).2.tokenStart = c.tokenStart := by
  obtain ⟨n, ⟨reason, hrun⟩ | ⟨t, hrun⟩⟩ := run_inside (o := o) (h := c) hp
  · rw [hrun, tokenStart_iterate_false]
  · rw [hrun, tokenStart_report, tokenStart_iterate_false]

/-- Only the blanks that are skipped take the start of the token along. -/
theorem tokenStart_scan (o : Options) (c : Cursor) :
    (Scan.scan o c).2.tokenStart = ((Host.advance true)^[(blanks o c).length] c).tokenStart := by
  by_cases hparen : (behindBlanks o c).head? = some '('
  · obtain ⟨cs, hcs⟩ := List.head?_eq_some_iff.1 hparen
    by_cases hstar : cs.head? = some '*'
    · obtain ⟨b, rfl⟩ := List.head?_eq_some_iff.1 hstar
      rw [scan_of_opener hcs, tokenStart_run_inside o (p := .entering) trivial]
      exact tokenStart_iterate_false _ 2
    · rw [scan_of_no_star hcs hstar]
      exact tokenStart_advance_false _
  · rw [scan_of_no_paren hparen]

/-- If any blank is skipped the token starts behind the blanks, wherever it started before. -/
lemma tokenStart_scan_eq (o : Options) (c : Cursor) :
    (Scan.scan o c).2.tokenStart =
      if blanks o c = [] then c.tokenStart else c.offsetAt (blanks o c).length := by
  rw [tokenStart_scan]
  have hsplit := text_eq_blanks_append o c
  generalize blanks o c = ws at hsplit
  cases ws with
  | nil => rfl
  | cons w ws =>
    have he := Host.eof_eq_false_of_peek (Readable.peek_of_text hsplit)
    rw [if_neg (List.cons_ne_nil w ws), List.length_cons, ← offsetAt_advance true]
    exact tokenStart_iterate_true (tokenStart_advance_of_not_eof he) ws.length

/-- A scan that abstains marks no end and names no symbol. -/
lemma kept_of_error {o : Options} {c d : Cursor} {reason : Abstention}
    (hs : Scan.scan o c = (.error reason, d)) : d.tokenEnd = c.tokenEnd ∧ d.symbol = c.symbol := by
  have kept := run_preserves (o := o)
    (P := fun d : Cursor => d.tokenEnd = c.tokenEnd ∧ d.symbol = c.symbol)
    (fun skip d _ hd =>
      ⟨(tokenEnd_advance skip d).trans hd.1, (symbol_advance skip d).trans hd.2⟩)
    .leading c ⟨rfl, rfl⟩
  rw [← Scan.scan, hs] at kept
  rcases kept with ⟨_, -, hd⟩ | ⟨t, g, hfound, -⟩
  · exact hd
  · cases hfound

/-- A scan starts the token of a fresh cursor behind the blanks. -/
lemma Fresh.tokenStart_scan (fresh : c.Fresh) (o : Options) :
    (Scan.scan o c).2.tokenStart = c.offsetAt (blanks o c).length := by
  rw [Cursor.tokenStart_scan]
  exact tokenStart_iterate_true fresh.tokenStart_eq _

/-- The bytes of the next `n` code points are read alike on their own. -/
lemma Placed.decodeAll_span (placed : c.Placed) (n : Nat) :
    Utf8.decodeAll (span c.input c.position (c.offsetAt n)) = (Utf8.decodeAll c.rest).take n := by
  rw [span, offsetAt, Nat.add_sub_cancel_left, ← placed.rest_eq]
  exact Utf8.decodeAll_take c.rest n

/-- No code point ends behind the input. -/
lemma Placed.offsetAt_le (placed : c.Placed) (n : Nat) : c.offsetAt n ≤ c.input.length := by
  rw [← position_iterate true, ← input_iterate true c n]
  exact (placed.iterate true n).position_le

end

/-- A new cursor at the place of a new cursor is the same one. -/
lemma atOffset_position (input : List UInt8) (offset : Nat) :
    atOffset input (atOffset input offset).position = atOffset input offset := by
  simp [atOffset]

/-- A placed cursor that knows of no token but its start is new. -/
lemma Placed.eq_atOffset {c : Cursor} (placed : c.Placed) (hstart : c.tokenStart = c.position)
    (hend : c.tokenEnd = none) (hsymbol : c.symbol = none) : c = atOffset c.input c.position := by
  obtain ⟨input, position, rest, tokenStart, tokenEnd, symbol⟩ := c
  obtain ⟨hle, hrest⟩ := placed
  simp only at hstart hend hsymbol hle hrest
  subst hstart hend hsymbol hrest
  simp [atOffset, Nat.min_eq_left hle]

/-- To skip a code point from a new cursor is to be new behind it. -/
lemma advance_true_atOffset (input : List UInt8) (offset : Nat) :
    Host.advance true (atOffset input offset) =
      atOffset input ((atOffset input offset).offsetAt 1) := by
  have hnew := ((placed_atOffset input offset).advance true).eq_atOffset
    (tokenStart_advance_true rfl) (tokenEnd_advance true _) (symbol_advance true _)
  rw [input_advance] at hnew
  rw [← position_iterate true]
  exact hnew

/-- Skipping from a new cursor leads to a new cursor. -/
lemma iterate_advance_true (input : List UInt8) (offset n : Nat) :
    (Host.advance true)^[n] (atOffset input offset) =
      atOffset input ((atOffset input offset).offsetAt n) := by
  induction n with
  | zero =>
    rw [offsetAt_zero, atOffset_position]
    rfl
  | succ n ih =>
    rw [Function.iterate_succ_apply', ih, advance_true_atOffset, ← ih, offsetAt_iterate]

/-- A scan from a new cursor is the scan from behind the blanks. -/
theorem scan_atOffset (o : Options) (input : List UInt8) (offset : Nat) :
    let c := atOffset input offset
    Scan.scan o c = Scan.scan o (atOffset input (c.offsetAt (blanks o c).length)) := by
  intro c
  rw [scan_eq_run_behindBlanks, iterate_advance_true]
  rfl

end Cursor

end NestedComment
