import NestedComment.Proofs.Cursor.Text
import NestedComment.Proofs.Scan.Ending

/-!
# The outcome of a scan

What a scan from a fresh cursor comes to, told from the code points before the cursor alone: which
code points are blanks, whether an opener follows, and where the balance of the text behind it comes
to zero or exceeds the limit. `scan_outcome` covers every outcome, with the offset at which it
leaves the cursor.
-/

namespace NestedComment

open Scan

section

variable {o : Options} {c : Cursor} {b : List Char} {k : Nat}

/-- The offsets behind the opener are counted on from the blanks and its two halves. -/
lemma offsetAt_behindOpener (n : Nat) :
    (behindOpener o c).offsetAt n = c.offsetAt ((blanks o c).length + 2 + n) := by
  rw [behindOpener, Cursor.offsetAt_iterate, Cursor.offsetAt_iterate]
  congr 1
  omega

/-- A cursor that has taken `n` code points behind the opener stands behind all of them. -/
lemma position_behindOpener (n : Nat) :
    ((Host.advance false)^[n] (behindOpener o c)).position =
      c.offsetAt ((blanks o c).length + 2 + n) := by
  rw [Cursor.position_iterate, offsetAt_behindOpener]

/-- The token still starts behind the blanks when code points behind the opener are taken. -/
lemma tokenStart_behindOpener (fresh : c.Fresh) (n : Nat) :
    ((Host.advance false)^[n] (behindOpener o c)).tokenStart = c.offsetAt (blanks o c).length := by
  rw [Cursor.tokenStart_iterate_false, behindOpener, Cursor.tokenStart_iterate_false]
  exact Cursor.tokenStart_iterate_true fresh.tokenStart_eq _

/-- The input is the same when code points behind the opener are taken. -/
lemma input_behindOpener (n : Nat) :
    ((Host.advance false)^[n] (behindOpener o c)).input = c.input := by
  rw [Cursor.input_iterate, behindOpener, Cursor.input_iterate, Cursor.input_iterate]

/-- Offsets behind more code points are no smaller. -/
lemma offsetAt_mono {m n : Nat} (h : m ≤ n) : c.offsetAt m ≤ c.offsetAt n := by
  obtain ⟨d, rfl⟩ := Nat.exists_eq_add_of_le h
  rw [← Cursor.offsetAt_iterate false c m d, ← Cursor.position_iterate false c m]
  exact Nat.le_add_right _ _

/-- The closer at place `k` of the body ends two code points later. -/
lemma position_behindCloser :
    (Host.advance false ((Host.advance false)^[k + 1] (behindOpener o c))).position =
      c.offsetAt ((blanks o c).length + k + 4) := by
  have hplace : (blanks o c).length + 2 + (k + 2) = (blanks o c).length + k + 4 := by omega
  rw [← hplace, ← position_behindOpener, Function.iterate_succ_apply' _ (k + 1)]

/-- A scan that closes the comment at place `k` of its body stops behind the closer, and its token
is all from the parenthesis of the opener up to there. -/
lemma report_behindOpener (fresh : c.Fresh) :
    let d := report ((Host.advance false)^[k + 1] (behindOpener o c))
    let stop := c.offsetAt ((blanks o c).length + k + 4)
    d.token = .ok (some (Cursor.span c.input (c.offsetAt (blanks o c).length) stop)) ∧
      d.tokenEnd = some stop ∧ d.position = stop := by
  intro d stop
  have hstop : d.position = stop := by
    rw [show d = _ from Cursor.report_eq _]
    exact position_behindCloser
  have hstart := tokenStart_behindOpener (o := o) fresh (k + 1)
  have hmono : c.offsetAt (blanks o c).length ≤ stop := offsetAt_mono (by omega)
  refine ⟨?_, ?_, hstop⟩
  · rw [← hstop, ← hstart] at hmono
    rw [Cursor.token_report hmono, hstop, hstart, input_behindOpener]
  · rw [← hstop, show d = _ from Cursor.report_eq _]

/-- The input ends behind the text behind the opener. -/
lemma offsetAt_length (hopener : behindBlanks o c = '(' :: '*' :: b) :
    c.offsetAt ((blanks o c).length + 2 + b.length) = c.position + c.rest.length := by
  rw [← Cursor.offsetAt_length_text, text_eq_blanks_append o c, hopener]
  simp only [List.length_append, List.length_cons]
  congr 1
  omega

end

/-- The outcome of a scan from a fresh cursor. Without an opener behind the blanks the scan
abstains. Otherwise let `b` be the text behind the opener. A limit cuts the scan off where the
balance of `b` exceeds it for the first time. A scan that is not cut off is that of no limit: it
finds the token that ends where the balance comes to zero for the first time, with the greatest
balance before as its nesting, and runs to the end of the input if there is no such place. -/
theorem scan_outcome (o : Options) {c : Cursor} (fresh : c.Fresh) :
    let m := (blanks o c).length
    let verdict := (Scan.scan o c).1
    let d := (Scan.scan o c).2
    ((behindBlanks o c).head? ≠ some '(' →
      verdict = .error (.notAComment (behindBlanks o c).head?) ∧ d.position = c.offsetAt m) ∧
    (∀ cs, behindBlanks o c = '(' :: cs → cs.head? ≠ some '*' →
      verdict = .error (.partialOpener cs.head?) ∧ d.position = c.offsetAt (m + 1)) ∧
    ∀ b, behindBlanks o c = '(' :: '*' :: b →
      (∀ l, verdict = .error (.depthLimit l) ↔
        l ∈ o.maxDepth ∧ ∃ k, (l.toNat : Int) < balance b k ∧ ∀ j < k, balance b (j + 1) ≠ 0) ∧
      (∀ k, IsLeast {k | CutOff o.maxDepth b k} k → d.position = c.offsetAt (m + 2 + k)) ∧
      ((∀ k, ¬CutOff o.maxDepth b k) →
        Scan.scan o c = Scan.scan { o with maxDepth := none } c ∧
        ((∃ t, verdict = .ok t) ↔ ∃ k, balance b (k + 1) = 0) ∧
        (∀ k, IsLeast {k | balance b (k + 1) = 0} k →
          (∃ deepest : Nat, verdict = .ok ⟨.comment, deepest⟩ ∧
            IsGreatest (balance b '' Set.Iic k) deepest) ∧
          d.token = .ok (some (Cursor.span c.input (c.offsetAt m) (c.offsetAt (m + k + 4)))) ∧
          d.tokenEnd = some (c.offsetAt (m + k + 4)) ∧ d.position = c.offsetAt (m + k + 4)) ∧
        ((∀ k, balance b (k + 1) ≠ 0) →
          (∃ depth : Nat, verdict = .error (.unterminated depth) ∧
            (depth : Int) = balance b b.length) ∧
          d.position = c.input.length)) := by
  intro m verdict d
  refine ⟨?_, ?_, ?_⟩
  · intro hparen
    have hscan := scan_of_no_paren hparen
    refine ⟨congrArg Prod.fst hscan, ?_⟩
    rw [show d = _ from congrArg Prod.snd hscan]
    exact Cursor.position_iterate true c m
  · intro cs hparen hstar
    have hscan := scan_of_no_star hparen hstar
    refine ⟨congrArg Prod.fst hscan, ?_⟩
    rw [show d = _ from congrArg Prod.snd hscan]
    rw [← Cursor.offsetAt_zero, Cursor.offsetAt_advance, Cursor.offsetAt_iterate]
  · intro b hopener
    refine ⟨fun l => verdict_eq_depthLimit_iff hopener, ?_, ?_⟩
    · intro k hk
      obtain ⟨l, hl, hscan⟩ := scan_of_cutOff hopener hk
      rw [show d = _ from congrArg Prod.snd hscan]
      exact position_behindOpener k
    · intro hcut
      refine ⟨scan_eq_scan_none hopener hcut, exists_token_iff hopener hcut, ?_, ?_⟩
      · intro k hk
        have hscan := scan_of_closed hopener hcut hk
        refine ⟨⟨_, congrArg Prod.fst hscan, isGreatest_deepest hk⟩, ?_⟩
        rw [show d = _ from congrArg Prod.snd hscan]
        exact report_behindOpener fresh
      · intro hopen
        have hscan := scan_of_open hopener hcut hopen
        refine ⟨⟨_, congrArg Prod.fst hscan, depth_trail hopen⟩, ?_⟩
        rw [show d = _ from congrArg Prod.snd hscan, position_behindOpener,
          offsetAt_length hopener, fresh.length_eq]

/-- A comment with overlapping delimiters, behind a blank and around a malformed byte. -/
theorem scan_outcome_of_overlapping :
    let input := [0x20, 0x28, 0x2A, 0xFF, 0x28, 0x2A, 0x29, 0x2A, 0x29, 0x78]
    let found := Scan.scan {} (Cursor.ofInput input)
    (Cursor.ofInput input).Fresh ∧ found.1 = .ok ⟨.comment, 2⟩ ∧
      found.2.token = .ok (some [0x28, 0x2A, 0xFF, 0x28, 0x2A, 0x29, 0x2A, 0x29]) := by
  intro input found
  let b := ['\uFFFD', '(', '*', ')', '*', ')', 'x']
  have fresh : (Cursor.ofInput input).Fresh := .ofInput input
  have hopener : behindBlanks {} (Cursor.ofInput input) = '(' :: '*' :: b := by decide +kernel
  have hbefore : ∀ k < 4, balance b (k + 1) ≠ 0 := by decide +kernel
  have hclosed : IsLeast {k | balance b (k + 1) = 0} 4 :=
    ⟨by decide +kernel, fun k hk => not_lt.1 fun hlt => hbefore k hlt hk⟩
  obtain ⟨⟨deepest, hverdict, hgreatest⟩, htoken, -⟩ :=
    (((scan_outcome {} fresh).2.2 b hopener).2.2 fun _ => not_cutOff_none).2.2.1 4 hclosed
  have hdeepest : deepest = 2 := by
    obtain ⟨j, hj, hbalance⟩ := hgreatest.1
    have hle : ∀ j ≤ 4, balance b j ≤ 2 := by decide +kernel
    have hge : (2 : Int) ≤ deepest := hgreatest.2 ⟨2, by decide, by decide +kernel⟩
    have := hle j hj
    omega
  subst hdeepest
  refine ⟨fresh, hverdict, htoken.trans ?_⟩
  decide +kernel

end NestedComment
