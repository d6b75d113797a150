import Mathlib.Data.List.DropRight
import NestedComment.Host.Recorded
import NestedComment.Proofs.Cursor.Moves
import NestedComment.Proofs.Scan.Calls

/-!
# When the bytes of a token can be taken

What is known of a token depends on the calls made since the cursor was new, that is, since it was
moved to an offset or resumed. `Recorded.move` keeps these calls, those of a scan among them. The
token has a symbol if the calls name one and an end if they mark one, and it starts behind its end
exactly if something was skipped behind the last mark. `Told` says so. Every call keeps it
(`Told.advance`, `Told.markEnd`, `Told.setSymbol`), hence every scan (`Told.scan`) and every move
(`Told.move`). `token_of_moves` reads off what the token is, and that a scan from a fresh cursor
leaves one exactly if it finds one.
-/

namespace NestedComment

open Scan

namespace Recorded

/-- The cursor after a move and the calls made on it since it was new. -/
def move (r : Recorded Cursor) : Move → Recorded Cursor
  | .moveTo offset => start (Cursor.atOffset r.host.input offset)
  | .advance skip => Host.advance skip r
  | .markEnd => Host.markEnd r
  | .setSymbol s => Host.setSymbol s r
  | .resume => start r.host.resume
  | .scan o => (Scan.scan o r).2

end Recorded

namespace Cursor

/-- Some call names the symbol of the token. -/
def Named (calls : List (Call Cursor)) : Prop :=
  ∃ a ∈ calls, ∃ s, a.action = .setSymbol s

/-- Some call marks the end of the token. -/
def Marked (calls : List (Call Cursor)) : Prop :=
  ∃ a ∈ calls, a.action = .markEnd

/-- The calls behind the last one that marks the end of the token. -/
def behindMark (calls : List (Call Cursor)) : List (Call Cursor) :=
  calls.rtakeWhile fun a => a.action ≠ .markEnd

/-- Some call behind the last mark skips a code point. -/
def Overtaken (calls : List (Call Cursor)) : Prop :=
  ∃ a ∈ behindMark calls, a.action = .advance true ∧ Host.eof a.before = false

section

variable {calls : List (Call Cursor)} {a : Call Cursor}

/-- One more call names the symbol, or a call before it did. -/
lemma named_snoc : Named (calls ++ [a]) ↔ Named calls ∨ ∃ s, a.action = .setSymbol s := by
  simp only [Named, List.mem_append, List.mem_singleton, or_and_right, exists_or, exists_eq_left]

/-- One more call marks the end, or a call before it did. -/
lemma marked_snoc : Marked (calls ++ [a]) ↔ Marked calls ∨ a.action = .markEnd := by
  simp only [Marked, List.mem_append, List.mem_singleton, or_and_right, exists_or, exists_eq_left]

/-- Nothing has been skipped behind a call that marks the end. -/
lemma overtaken_snoc_of_mark (h : a.action = .markEnd) : ¬Overtaken (calls ++ [a]) := by
  rintro ⟨b, hb, -⟩
  rw [behindMark, List.rtakeWhile_concat_neg _ _ _ (by simp [h])] at hb
  cases hb

/-- One more call that marks no end skips a code point, or a call before it did. -/
lemma overtaken_snoc (h : a.action ≠ .markEnd) : Overtaken (calls ++ [a]) ↔
    Overtaken calls ∨ a.action = .advance true ∧ Host.eof a.before = false := by
  have hbehind : behindMark (calls ++ [a]) = behindMark calls ++ [a] :=
    List.rtakeWhile_concat_pos _ _ _ (by simp [h])
  simp only [Overtaken, hbehind, List.mem_append, List.mem_singleton, or_and_right, exists_or,
    exists_eq_left]

end

/-- What the calls made on a cursor since it was new say of its token. -/
structure Told (calls : List (Call Cursor)) (c : Cursor) : Prop where
  trails : c.Trails
  named : c.symbol.isSome = true ↔ Named calls
  marked : c.tokenEnd.isSome = true ↔ Marked calls
  overtaken : ∀ stop ∈ c.tokenEnd, stop < c.tokenStart ↔ Overtaken calls

section

variable {r : Recorded Cursor}

/-- The token of a fresh cursor is told from no calls. -/
lemma told_start {c : Cursor} (fresh : c.Fresh) : Told [] c := by
  obtain ⟨input, offset, rfl⟩ := fresh.exists_atOffset
  refine ⟨trails_atOffset input offset, ?_, ?_, ?_⟩
  · simp [atOffset, Named]
  · simp [atOffset, Marked]
  · intro stop hstop
    cases hstop

/-- To skip a code point takes the start of the token behind its marked end. -/
lemma Trails.tokenEnd_lt_advance {c : Cursor} (trails : c.Trails) (skip : Bool) {stop : Nat}
    (hstop : stop ∈ c.tokenEnd) : stop < (c.advance skip).tokenStart ↔
      stop < c.tokenStart ∨ skip = true ∧ Host.eof c = false := by
  cases he : Host.eof c with
  | true => simp [advance_of_eof skip he]
  | false =>
    cases skip with
    | false => simp
    | true =>
      have hle := trails.tokenEnd_le stop hstop
      have hlt := position_lt_advance true he
      rw [tokenStart_advance_of_not_eof he]
      simp only [and_self, or_true, iff_true]
      exact hle.trans_lt hlt

/-- What the calls say of the token stays true when the cursor moves. -/
lemma Told.advance (told : Told r.calls.toList r.host) (skip : Bool) :
    Told (Host.advance skip r).calls.toList (Host.advance skip r).host := by
  show Told (r.calls.push ⟨.advance skip, r.host⟩).toList (r.host.advance skip)
  rw [Array.toList_push]
  refine ⟨told.trails.advance skip, ?_, ?_, ?_⟩
  · rw [symbol_advance, told.named, named_snoc]
    simp
  · rw [tokenEnd_advance, told.marked, marked_snoc]
    simp
  · intro stop hstop
    rw [tokenEnd_advance] at hstop
    rw [told.trails.tokenEnd_lt_advance skip hstop, told.overtaken stop hstop,
      overtaken_snoc (by simp)]
    simp

/-- What the calls say of the token stays true when its end is marked. -/
lemma Told.markEnd (told : Told r.calls.toList r.host) :
    Told (Host.markEnd r).calls.toList (Host.markEnd r).host := by
  show Told (r.calls.push ⟨.markEnd, r.host⟩).toList r.host.markEnd
  rw [Array.toList_push]
  refine ⟨told.trails.markEnd, ?_, ?_, ?_⟩
  · rw [named_snoc, ← told.named]
    simp [Cursor.markEnd]
  · rw [marked_snoc]
    simp [Cursor.markEnd]
  · intro stop hstop
    cases hstop
    have hnot : ¬r.host.position < r.host.tokenStart := not_lt.2 told.trails.tokenStart_le
    exact iff_of_false hnot (overtaken_snoc_of_mark rfl)

/-- What the calls say of the token stays true when its symbol is named. -/
lemma Told.setSymbol (told : Told r.calls.toList r.host) (s : Symbol) :
    Told (Host.setSymbol s r).calls.toList (Host.setSymbol s r).host := by
  show Told (r.calls.push ⟨.setSymbol s, r.host⟩).toList (r.host.setSymbol s)
  rw [Array.toList_push]
  refine ⟨told.trails.setSymbol s, ?_, ?_, ?_⟩
  · rw [named_snoc]
    exact iff_of_true rfl (.inr ⟨s, rfl⟩)
  · rw [marked_snoc, ← told.marked]
    simp [Cursor.setSymbol]
  · intro stop hstop
    rw [overtaken_snoc (by simp)]
    simpa [Cursor.setSymbol] using told.overtaken stop hstop

/-- What the calls say of the token stays true behind a scan. -/
lemma Told.scan (told : Told r.calls.toList r.host) (o : Options) :
    Told (Scan.scan o r).2.calls.toList (Scan.scan o r).2.host := by
  rcases Scan.run_preserves (o := o) (P := fun r : Recorded Cursor => Told r.calls.toList r.host)
    (fun skip _ _ told => told.advance skip) .leading r told with
    ⟨reason, -, told'⟩ | ⟨t, s, hrun, -, told'⟩
  · exact told'
  · rw [Scan.scan, hrun]
    exact ((told'.setSymbol .comment).advance false).markEnd

/-- Every move keeps what the calls say, for a cursor that is new starts with no calls. -/
theorem Told.move (told : Told r.calls.toList r.host) (m : Move) :
    Told (r.move m).calls.toList (r.move m).host := by
  cases m with
  | moveTo offset => exact told_start (.atOffset r.host.input offset)
  | advance skip => exact told.advance skip
  | markEnd => exact told.markEnd
  | setSymbol s => exact told.setSymbol s
  | resume => exact told_start (.resume r.host)
  | scan o => exact told.scan o

/-- Recording the calls changes no move. -/
lemma Recorded.host_move (r : Recorded Cursor) (m : Move) : (r.move m).host = r.host.move m := by
  cases m with
  | scan o =>
    have same : Simulation fun (c : Cursor) (r : Recorded Cursor) => r.host = c :=
      simulation_recorded fun _ _ => rfl
    exact (same.run o .leading rfl).2
  | _ => rfl

/-- There is no token, or it ends where it starts or behind, or it starts behind its end. -/
lemma Told.token_cases {calls : List (Call Cursor)} {c : Cursor} (told : Told calls c) :
    (¬(Named calls ∧ Marked calls) ∧ c.token = .ok none) ∨
      ∃ stop, c.tokenEnd = some stop ∧ Named calls ∧ Marked calls ∧
        (¬Overtaken calls ∧ c.tokenStart ≤ stop ∧
            c.token = .ok (some (span c.input c.tokenStart stop)) ∨
          Overtaken calls ∧ stop < c.tokenStart ∧ c.token = .error ⟨c.tokenStart, stop⟩) := by
  cases hsymbol : c.symbol with
  | none =>
    left
    refine ⟨?_, by simp [token, hsymbol]⟩
    rintro ⟨named, -⟩
    have := told.named.2 named
    simp [hsymbol] at this
  | some s =>
    have named : Named calls := told.named.1 (by simp [hsymbol])
    cases hend : c.tokenEnd with
    | none =>
      left
      refine ⟨?_, by simp [token, hend]⟩
      rintro ⟨-, marked⟩
      have := told.marked.2 marked
      simp [hend] at this
    | some stop =>
      right
      have marked : Marked calls := told.marked.1 (by simp [hend])
      refine ⟨stop, rfl, named, marked, ?_⟩
      rw [← told.overtaken stop hend, not_lt]
      rcases le_or_gt c.tokenStart stop with hle | hlt
      · exact .inl ⟨hle, hle, by simp [token, hsymbol, hend, hle]⟩
      · exact .inr ⟨hlt, hlt, by simp [token, hsymbol, hend, hlt]⟩

/-- The bytes of a token, if there are any to be taken, lie inside the input. -/
lemma Told.token_iff {calls : List (Call Cursor)} {c : Cursor} (told : Told calls c)
    (placed : c.Placed) :
    ((∃ s, c.token = .error s) ↔ Named calls ∧ Marked calls ∧ Overtaken calls) ∧
    ((∃ stop ∈ c.tokenEnd, c.tokenStart ≤ stop ∧ stop ≤ c.input.length ∧
      c.token = .ok (some (span c.input c.tokenStart stop))) ↔
        Named calls ∧ Marked calls ∧ ¬Overtaken calls) ∧
    (c.token = .ok none ↔ ¬(Named calls ∧ Marked calls)) := by
  rcases told.token_cases with ⟨hnone, htoken⟩ |
    ⟨stop, hend, named, marked, ⟨hnot, hle, htoken⟩ | ⟨overtaken, -, htoken⟩⟩
  · simp only [htoken, Except.ok.injEq, reduceCtorEq, and_false, exists_false, false_iff, true_iff]
    exact ⟨fun h => hnone ⟨h.1, h.2.1⟩, fun h => hnone ⟨h.1, h.2.1⟩, hnone⟩
  · have hstop : stop ≤ c.input.length :=
      (told.trails.tokenEnd_le stop hend).trans placed.position_le
    simp [htoken, hend, named, marked, hnot, hle, hstop]
  · simp [htoken, named, marked, overtaken]

/-- A scan from a fresh cursor leaves a token exactly if it finds one. -/
lemma Fresh.token_scan {c : Cursor} (fresh : c.Fresh) (o : Options) :
    (∀ s, (Scan.scan o c).2.token ≠ .error s) ∧
      ((∃ bytes, (Scan.scan o c).2.token = .ok (some bytes)) ↔ ∃ t, (Scan.scan o c).1 = .ok t) := by
  have trails := (told_start fresh).trails.scan o
  have hnew := (told_start fresh).marked
  generalize hs : Scan.scan o c = result at trails
  obtain ⟨v, d⟩ := result
  cases v with
  | ok t =>
    have htoken := token_of_scan hs trails.tokenStart_le
    simp [htoken]
  | error reason =>
    have hend : d.tokenEnd = none := by
      rw [(kept_of_error hs).1]
      simpa [Marked] using hnew
    have htoken : d.token = .ok none := by
      simp [token, hend]
    simp [htoken]

end

/-- After any moves the calls since the cursor was new tell of its token. -/
lemma told_of_moves (input : List UInt8) (moves : List Move) :
    let r := moves.foldl Recorded.move (.start (ofInput input))
    r.host = moves.foldl Cursor.move (ofInput input) ∧ Told r.calls.toList r.host ∧
      r.host.Reachable input := by
  induction moves using List.reverseRecOn with
  | nil => exact ⟨rfl, told_start (.ofInput input), .start⟩
  | append_singleton moves m ih =>
    obtain ⟨hhost, told, reachable⟩ := ih
    rw [List.foldl_append, List.foldl_append]
    refine ⟨?_, told.move m, ?_⟩
    · exact (Recorded.host_move _ m).trans (congrArg (·.move m) hhost)
    · have moved := reachable.move m
      rwa [← Recorded.host_move] at moved

/-- Whatever moves lead to a cursor, the calls made on it since it was new tell what its token is.
The token starts behind its end, so that its bytes cannot be taken, exactly if the calls name a
symbol, mark an end, and skip a code point behind the last mark. If they name a symbol and mark an
end but skip nothing behind it the token is the bytes in between, and if one of the two is missing
there is no token. So a scan from a fresh cursor never leaves a token whose bytes cannot be taken,
and leaves a token exactly if it finds one. -/
theorem token_of_moves (input : List UInt8) (moves : List Move) :
    let r := moves.foldl Recorded.move (.start (ofInput input))
    let c := moves.foldl Cursor.move (ofInput input)
    let calls := r.calls.toList
    r.host = c ∧
    ((∃ s, c.token = .error s) ↔ Named calls ∧ Marked calls ∧ Overtaken calls) ∧
    ((∃ stop ∈ c.tokenEnd, c.tokenStart ≤ stop ∧ stop ≤ input.length ∧
      c.token = .ok (some (span input c.tokenStart stop))) ↔
        Named calls ∧ Marked calls ∧ ¬Overtaken calls) ∧
    (c.token = .ok none ↔ ¬(Named calls ∧ Marked calls)) ∧
    ∀ o, c.Fresh → (∀ s, (c.move (.scan o)).token ≠ .error s) ∧
      ((∃ bytes, (c.move (.scan o)).token = .ok (some bytes)) ↔ ∃ t, (scan o c).1 = .ok t) := by
  intro r c calls
  obtain ⟨hhost, told, reachable⟩ : r.host = c ∧ Told calls r.host ∧ r.host.Reachable input :=
    told_of_moves input moves
  rw [hhost] at told reachable
  obtain ⟨hinput, placed⟩ := reachable.placed
  obtain ⟨hreversed, hwhole, hnone⟩ := told.token_iff placed
  rw [hinput] at hwhole
  exact ⟨hhost, hreversed, hwhole, hnone, fun o fresh => fresh.token_scan o⟩

/-- A second scan skips a blank behind the end that the first one marked. -/
example : (([.scan {}, .scan {}] : List Move).foldl Cursor.move
    (ofInput [0x28, 0x2A, 0x2A, 0x29, 0x20])).token = .error ⟨5, 4⟩ := by
  decide +kernel

end Cursor

end NestedComment
