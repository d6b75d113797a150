import NestedComment.Proofs.Cursor.Abreast
import NestedComment.Proofs.Scan.Depth
import NestedComment.Proofs.Scan.Failure
import NestedComment.Proofs.Scan.Nesting

/-!
# Closing what is open

A scan that comes to the end of the input inside a comment reports how many comments are open. So
many `closers` are missing there. Each of them closes one comment (`Bounded.passes_closers`), and
the last one the outermost (`Bounded.last_closer`). Wherever the input ends, in a longer input a
scan comes to the same state before the closers (`reaches_closers`): the blank that stands first
goes on from no code point and completes no delimiter. `scan_closers` says what a scan comes to if
too few closers follow, and if enough do.
-/

namespace NestedComment

open Scan

universe u

/-- Closers in a row, each behind a blank. -/
def closers (n : Nat) : List Char := (List.replicate n [' ', '*', ')']).flatten

/-- One more closer at the front. -/
lemma closers_succ (n : Nat) : closers (n + 1) = [' '] ++ (['*', ')'] ++ closers n) := rfl

/-- One more closer at the end, with its second half apart. -/
lemma closers_succ_last (n : Nat) :
    closers (n + 1) = (closers n ++ ([' '] ++ ['*'])) ++ [')'] := by
  rw [closers, List.replicate_succ', List.flatten_append, List.append_assoc]
  rfl

namespace Scan.Body

variable {limit : Option UInt64} {b : Body} {n : Nat}

/-- Behind a blank no half of a delimiter is remembered. -/
lemma Bounded.blank (bounded : b.Bounded limit) : b.Passes limit [' '] ∧
    b.trail [' '] = { b with half := .neither } ∧ (b.trail [' ']).Settled := by
  have hinert : ∀ c ∈ [' '], Inert c := by
    intro c hc
    rw [List.mem_singleton.1 hc]
    exact ⟨by decide, by decide, by decide⟩
  have htrail : b.trail [' '] = { b with half := .neither } :=
    trail_of_inert hinert (List.cons_ne_nil _ _)
  refine ⟨passes_of_inert hinert, htrail, ?_⟩
  rw [htrail]
  exact ⟨Half.noConfusion, bounded.depth_pos, bounded.depth_le⟩

/-- As long as fewer closers follow than comments are open, each closes one. -/
lemma Bounded.passes_closers (bounded : b.Bounded limit) (hn : n < b.depth) :
    b.Passes limit (closers n) ∧ (b.trail (closers n)).Bounded limit ∧
      (b.trail (closers n)).depth = b.depth - n ∧ (b.trail (closers n)).deepest = b.deepest := by
  induction n generalizing b with
  | zero => exact ⟨trivial, bounded, rfl, rfl⟩
  | succ n ih =>
    obtain ⟨hblank, htrail, settled⟩ := bounded.blank
    have hdepth : (b.trail [' ']).depth = b.depth := by rw [htrail]
    obtain ⟨hcloser, hclosed⟩ := settled.closer limit (by omega)
    have hshallower : (b.trail [' ']).trail ['*', ')'] = b.shallower := by
      rw [hclosed, htrail]
      rfl
    have hlt : n < b.shallower.depth := Nat.lt_sub_of_add_lt hn
    have bounded' := (Follows.shallower (n.zero_le.trans_lt hlt)).bounded bounded
    obtain ⟨hpasses, hbounded, hless, hdeepest⟩ := ih bounded' hlt
    rw [closers_succ, trail_append, trail_append, hshallower, passes_append, passes_append,
      hshallower]
    refine ⟨⟨hblank, hcloser, hpasses⟩, hbounded, ?_, hdeepest⟩
    rw [hless, shallower, Nat.sub_sub, Nat.add_comm 1 n]

/-- Behind the star of the last closer the outermost comment may end. -/
lemma Bounded.last_closer (bounded : b.Bounded limit) (hn : b.depth = n + 1) :
    let front := closers n ++ ([' '] ++ ['*'])
    b.Passes limit front ∧ (b.trail front).Ends ')' ∧ (b.trail front).deepest = b.deepest := by
  intro front
  obtain ⟨hpasses, bounded', hdepth, hdeepest⟩ := bounded.passes_closers (by omega : n < b.depth)
  obtain ⟨hblank, htrail, settled⟩ := bounded'.blank
  obtain ⟨hstar, hhalf⟩ := settled.star limit
  have hfront : b.trail front = { b.trail (closers n) with half := .closer } := by
    rw [trail_append, trail_append, hhalf, htrail]
  have hone : (b.trail (closers n)).depth ≤ 1 := by omega
  rw [hfront]
  exact ⟨passes_append.2 ⟨hpasses, passes_append.2 ⟨hblank, hstar⟩⟩, ⟨⟨rfl, rfl⟩, hone⟩, hdeepest⟩

end Scan.Body

section

variable {σ : Type u} [BoundedHost σ] [Readable σ] {o : Options} {b : Body} {h : σ} {n : Nat}

/-- Too few closers leave the other comments open. -/
lemma run_of_few_closers (ht : Readable.text h = closers n) (bounded : b.Bounded o.maxDepth)
    (hn : n < b.depth) : (run o (.body b) h).1 = .error (.unterminated (b.depth - n)) := by
  obtain ⟨hpasses, -, hdepth, -⟩ := bounded.passes_closers hn
  rw [← List.append_nil (closers n)] at ht
  have hend := Readable.text_iterate false ht
  rw [(reaches_trail ht hpasses).run_eq, run_of_stopped (step_of_eof (Readable.peek_of_nil hend)),
    hdepth]

/-- The last of as many closers as comments are open ends the outermost one. -/
lemma run_of_closers (ht : Readable.text h = closers b.depth) (bounded : b.Bounded o.maxDepth) :
    ∃ m, m + 1 = (Readable.text h).length ∧
      run o (.body b) h = (.ok ⟨.comment, b.deepest⟩, report ((Host.advance false)^[m] h)) := by
  obtain ⟨n, hn⟩ := Nat.exists_eq_add_of_le' bounded.depth_pos
  obtain ⟨hpasses, hends, hdeepest⟩ := bounded.last_closer hn
  rw [hn, closers_succ_last] at ht
  have hpeek := Readable.peek_of_text (Readable.text_iterate false ht)
  refine ⟨_, by rw [ht, List.length_append]; rfl, ?_⟩
  rw [(reaches_trail ht hpasses).run_eq, run_of_stopped (step_of_ends hpeek hends), hdeepest]

end

section

variable {o : Options} {s : List UInt8} {depth : Nat} {d : Cursor}

/-- No code point is read across the border before a blank. -/
lemma parted_closers (s : List UInt8) (n : Nat) : Utf8.Parted s (Utf8.encode (closers n)) := by
  cases n with
  | zero => exact Utf8.parted_nil s
  | succ n => exact Utf8.parted_of_head s (by decide)

/-- Where the input ends inside a comment a scan comes to the same state before any closers. -/
lemma reaches_closers (hs : scan o (Cursor.ofInput s) = (.error (.unterminated depth), d)) :
    ∃ b : Body, b.depth = depth ∧ b.Bounded o.maxDepth ∧ ∀ n, ∃ k,
      Reaches o .leading (Cursor.ofInput (s ++ Utf8.encode (closers n))) (.body b) k ∧
        Readable.text k = closers n := by
  obtain ⟨q, reached, fails⟩ := fails_of_returns (returns_iff_run.2 hs)
  generalize hpeek : Host.peek d = seen at fails
  cases fails with
  | @unterminated b =>
    refine ⟨b, rfl, reached.bounded Phase.bounded_leading b rfl, fun n => ?_⟩
    have abreast := Cursor.abreast_atOffset (Nat.zero_le _) (Nat.zero_le _)
      (List.append_nil s).symm rfl (Utf8.parted_nil s) (parted_closers s n)
    obtain ⟨k, reached', abreast'⟩ := reached.abreast abreast (.inr rfl)
    obtain ⟨front, hend, hrest, -⟩ := abreast'.shared
    have hnil : d.rest = [] := List.isEmpty_iff.1 (Host.peek_eq_none_iff.1 hpeek)
    obtain ⟨rfl, -⟩ := List.append_eq_nil_iff.1 (hend.symm.trans hnil)
    exact ⟨k, reached', Cursor.text_of_encode hrest⟩

/-- The depth that a scan reports at the end of the input is the number of closers that are missing
there. Of any fewer each makes it less by one. As many as that make a token that ends with them, and
the limit is kept to. -/
theorem scan_closers (hs : scan o (Cursor.ofInput s) = (.error (.unterminated depth), d)) :
    (∀ k < depth, (scan o (Cursor.ofInput (s ++ Utf8.encode (closers k)))).1 =
      .error (.unterminated (depth - k))) ∧
    ∃ t e, scan o (Cursor.ofInput (s ++ Utf8.encode (closers depth))) = (.ok t, e) ∧
      e.tokenEnd = some (s ++ Utf8.encode (closers depth)).length ∧ depth ≤ t.deepest ∧
      ∀ l ∈ o.maxDepth, t.deepest ≤ l.toNat := by
  obtain ⟨b, rfl, bounded, hreaches⟩ := reaches_closers hs
  refine ⟨?_, ?_⟩
  · intro k hk
    obtain ⟨g, reached, htext⟩ := hreaches k
    rw [scan, reached.run_eq]
    exact run_of_few_closers htext bounded hk
  · obtain ⟨g, reached, htext⟩ := hreaches b.depth
    obtain ⟨m, hm, hrun⟩ := run_of_closers htext bounded
    obtain ⟨hinput, placed⟩ := (Cursor.placed_atOffset _ 0).reaches reached
    refine ⟨_, _, reached.run_eq.trans hrun, ?_, bounded.depth_le, bounded.deepest_le⟩
    rw [placed.tokenEnd_report hm, hinput]
    rfl

/-- An input that ends inside a code point, where as many comments are open as the limit allows. -/
theorem scan_closers_of_cut_off :
    let s := [0x28, 0x2A, 0x28, 0x2A, 0x2A, 0x29, 0x28, 0x2A, 0xE2, 0x80]
    let o : Options := { maxDepth := some 2 }
    let d := (scan o (Cursor.ofInput s)).2
    scan o (Cursor.ofInput s) = (.error (.unterminated 2), d) ∧
    (∀ k < 2, (scan o (Cursor.ofInput (s ++ Utf8.encode (closers k)))).1 =
      .error (.unterminated (2 - k))) ∧
    ∃ t e, scan o (Cursor.ofInput (s ++ Utf8.encode (closers 2))) = (.ok t, e) ∧
      e.tokenEnd = some (s ++ Utf8.encode (closers 2)).length ∧ 2 ≤ t.deepest ∧
      ∀ l ∈ o.maxDepth, t.deepest ≤ l.toNat := by
  intro s o d
  have hs : scan o (Cursor.ofInput s) = (.error (.unterminated 2), d) :=
    Prod.ext (by decide +kernel) rfl
  exact ⟨hs, scan_closers hs⟩

end

end NestedComment
