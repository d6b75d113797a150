import NestedComment.Proofs.Cursor.Moves
import NestedComment.Proofs.Outcome

/-!
# What an abstaining scan leaves behind

A host goes on with its own tokens from where a scan without a token has left its cursor. `LeavesAt`
tells that place for each reason to abstain. `abstention_leaves` says so of any cursor that a host
may have come to, and that of the token that was known before only the start may be another one.
-/

namespace NestedComment

open Scan

/-- The place of a cursor `d` behind a scan from `c` that abstained, and what stands there. -/
inductive LeavesAt (o : Options) (c d : Cursor) : Abstention → Prop where
  /-- Behind the blanks. -/
  | notAComment : d.position = c.offsetAt (blanks o c).length →
    LeavesAt o c d (.notAComment (Host.peek d))
  /-- Behind the blanks and a parenthesis. -/
  | partialOpener : (behindBlanks o c).head? = some '(' →
    d.position = c.offsetAt ((blanks o c).length + 1) →
    LeavesAt o c d (.partialOpener (Host.peek d))
  /-- At the end of the input. -/
  | unterminated {depth : Nat} : 0 < depth → Host.eof d = true → d.position = c.input.length →
    LeavesAt o c d (.unterminated depth)
  /-- Behind the outer opener, if not even one comment is allowed. -/
  | outermost {b : List Char} : behindBlanks o c = '(' :: '*' :: b →
    d.position = c.offsetAt ((blanks o c).length + 2) → LeavesAt o c d (.depthLimit 0)
  /-- Behind the parenthesis of the opener at place `k` of the body, before its star. -/
  | deeper {b : List Char} {k : Nat} {l : UInt64} : behindBlanks o c = '(' :: '*' :: b → 0 < l →
    OpensAt b k → d.position = c.offsetAt ((blanks o c).length + 2 + (k + 1)) →
    Host.peek d = some '*' → LeavesAt o c d (.depthLimit l)

section

variable {o : Options} {c d : Cursor} {b : List Char} {k : Nat} {l : UInt64} {reason : Abstention}

/-- Behind a parenthesis that no star follows, a scan leaves the cursor and tells what it found. -/
lemma leavesAt_of_no_star {cs : List Char} (hparen : behindBlanks o c = '(' :: cs) :
    LeavesAt o c (Host.advance false ((Host.advance true)^[(blanks o c).length] c))
      (.partialOpener cs.head?) := by
  have htext := text_behindBlanks o c
  rw [hparen] at htext
  rw [← Readable.text_of_advance false htext, ← Readable.peek_eq]
  apply LeavesAt.partialOpener
  · rw [hparen]
    rfl
  · rw [← Cursor.offsetAt_zero, Cursor.offsetAt_advance, Cursor.offsetAt_iterate]

/-- A limit cuts a scan off behind the outer opener, or behind the parenthesis of a later one. -/
lemma leavesAt_of_cutOff (hopener : behindBlanks o c = '(' :: '*' :: b)
    (hk : IsLeast {k | CutOff o.maxDepth b k} k) (hl : l ∈ o.maxDepth) :
    LeavesAt o c ((Host.advance false)^[k] (behindOpener o c)) (.depthLimit l) := by
  have hleast := isLeast_exceeds hk
  cases k with
  | zero =>
    obtain ⟨l', hl', hlt⟩ := hleast.1
    cases Option.mem_unique hl hl'
    rw [balance_zero] at hlt
    have hzero : l.toNat = 0 := by omega
    rw [show l = 0 from UInt64.toNat_inj.1 hzero]
    exact .outermost hopener (position_behindOpener 0)
  | succ k =>
    have hbefore : ∀ j ≤ k, ¬Exceeds o.maxDepth b j := fun j hj hexceeds =>
      absurd (hleast.2 hexceeds) (not_le.2 (Nat.lt_succ_of_le hj))
    have hopens := exceeds_succ hleast.1 (hbefore k le_rfl)
    have hpos : 0 < l := by
      rw [UInt64.lt_iff_toNat_lt]
      refine Nat.pos_of_ne_zero fun hzero => hbefore 0 (Nat.zero_le k) ⟨l, hl, ?_⟩
      rw [hzero]
      exact Int.one_pos
    apply LeavesAt.deeper hopener hpos hopens (position_behindOpener (k + 1))
    rw [peek_iterate (text_behindOpener hopener) (lt_length_of_opensAt hopens).le]
    exact hopens.2

/-- A body that stays open is read to the end of the input. -/
lemma leavesAt_of_open (placed : c.Placed) (hopener : behindBlanks o c = '(' :: '*' :: b)
    (hopen : ∀ k, balance b (k + 1) ≠ 0) :
    LeavesAt o c ((Host.advance false)^[b.length] (behindOpener o c))
      (.unterminated (Body.inside.trail b).depth) := by
  have hdepth := depth_trail hopen
  have hpos := balance_pos fun j (_ : j < b.length) => hopen j
  apply LeavesAt.unterminated
  · omega
  · rw [← Host.peek_eq_none_iff, peek_iterate (text_behindOpener hopener) le_rfl]
    exact List.getElem?_eq_none le_rfl
  · rw [position_behindOpener, offsetAt_length hopener, placed.length_eq]

/-- Behind an opener, only the limit or the end of the input stops a scan that finds no token. -/
lemma leavesAt_of_opener (placed : c.Placed) (hopener : behindBlanks o c = '(' :: '*' :: b)
    (hs : scan o c = (.error reason, d)) : LeavesAt o c d reason := by
  by_cases hcut : ∃ k, CutOff o.maxDepth b k
  · obtain ⟨k, hk⟩ := hcut
    obtain ⟨k, hleast⟩ := hk.exists_isLeast
    obtain ⟨l, hl, hscan⟩ := scan_of_cutOff hopener hleast
    cases hs.symm.trans hscan
    exact leavesAt_of_cutOff hopener hleast hl
  · have hnot : ∀ k, ¬CutOff o.maxDepth b k := fun k hk => hcut ⟨k, hk⟩
    by_cases hclosed : ∃ k, balance b (k + 1) = 0
    · obtain ⟨k, hk⟩ := hclosed
      obtain ⟨k, hk⟩ := exists_closedAt hk
      cases hs.symm.trans (scan_of_closed hopener hnot hk)
    · have hopen : ∀ k, balance b (k + 1) ≠ 0 := fun k hk => hclosed ⟨k, hk⟩
      cases hs.symm.trans (scan_of_open hopener hnot hopen)
      exact leavesAt_of_open placed hopener hopen

/-- Every abstention leaves the cursor at the place of its reason. -/
lemma leavesAt_of_scan (placed : c.Placed) (hs : scan o c = (.error reason, d)) :
    LeavesAt o c d reason := by
  by_cases hparen : (behindBlanks o c).head? = some '('
  · obtain ⟨cs, hcs⟩ := List.head?_eq_some_iff.1 hparen
    by_cases hstar : cs.head? = some '*'
    · obtain ⟨b, rfl⟩ := List.head?_eq_some_iff.1 hstar
      exact leavesAt_of_opener placed hcs hs
    · cases hs.symm.trans (scan_of_no_star hcs hstar)
      exact leavesAt_of_no_star hcs
  · cases hs.symm.trans (scan_of_no_paren hparen)
    have htext := text_behindBlanks o c
    rw [← htext, ← Readable.peek_eq]
    exact .notAComment (Cursor.position_iterate true c _)

end

/-- What a scan leaves of a cursor if it finds no token. The end and the symbol of a token that were
known before stay as they are. The start of the token is behind the blanks if there are any, or else
stays as it is. The cursor is where the reason says, and a code point that the reason names is the
one at the cursor. -/
theorem abstention_leaves {o : Options} {input : List UInt8} {c d : Cursor} {reason : Abstention}
    (reachable : c.Reachable input) (hs : scan o c = (.error reason, d)) :
    d.tokenEnd = c.tokenEnd ∧ d.symbol = c.symbol ∧
      d.tokenStart = (if blanks o c = [] then c.tokenStart else c.offsetAt (blanks o c).length) ∧
      LeavesAt o c d reason := by
  obtain ⟨-, placed⟩ := reachable.placed
  obtain ⟨hend, hsymbol⟩ := Cursor.kept_of_error hs
  have hstart := Cursor.tokenStart_scan_eq o c
  rw [hs] at hstart
  exact ⟨hend, hsymbol, hstart, leavesAt_of_scan placed hs⟩

/-- A token that was found before and not forgotten keeps its end and its symbol, and its start
moves past them when a second scan skips the blank and is cut off behind the malformed byte. -/
theorem abstention_leaves_of_stale :
    let input := [0x28, 0x2A, 0x2A, 0x29, 0x20, 0x28, 0x2A, 0xE2, 0x28, 0x2A]
    let c := (Cursor.ofInput input).move (.scan {})
    let o : Options := { maxDepth := some 1 }
    let d := (scan o c).2
    c.Reachable input ∧ scan o c = (.error (.depthLimit 1), d) ∧ d.tokenEnd = some 4 ∧
      d.symbol = some .comment ∧ d.tokenStart = 5 ∧ LeavesAt o c d (.depthLimit 1) := by
  intro input c o d
  have reachable : c.Reachable input := .move (.scan {}) .start
  have hs : scan o c = (.error (.depthLimit 1), d) := Prod.ext (by decide +kernel) rfl
  obtain ⟨hend, hsymbol, hstart, leaves⟩ := abstention_leaves reachable hs
  refine ⟨reachable, hs, ?_, ?_, ?_, leaves⟩
  · exact hend.trans (by decide +kernel)
  · exact hsymbol.trans (by decide +kernel)
  · exact hstart.trans (by decide +kernel)

end NestedComment
