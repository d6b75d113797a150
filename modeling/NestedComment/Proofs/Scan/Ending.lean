import Mathlib.Order.Nat
import NestedComment.Proofs.Balance

/-!
# Where the body of a comment ends

On a readable host the balance of the text behind the outer opener tells all about the scan of the
body: it is cut off at the first place where the balance exceeds the limit
(`run_entering_of_exceeds`), it finds a token at the first place where the balance comes to zero
(`run_entering_of_closed`), and it runs to the end of the input if there is neither
(`run_entering_of_open`).
-/

namespace NestedComment

open Scan

universe u

/-- A limit cuts a text off at a place that is still inside the outermost comment. -/
def CutOff (limit : Option UInt64) (b : List Char) (k : Nat) : Prop :=
  Exceeds limit b k ∧ ∀ j < k, balance b (j + 1) ≠ 0

/-- The closer of the outermost comment stands at a place of a text. -/
def ClosedAt (b : List Char) (k : Nat) : Prop := IsLeast {k | balance b (k + 1) = 0} k

section

variable {limit : Option UInt64} {b : List Char} {k : Nat}

/-- A text that is cut off is cut off at the first place that exceeds the limit. -/
lemma CutOff.exists_least (h : CutOff limit b k) :
    ∃ l, IsLeast {k | Exceeds limit b k} l ∧ CutOff limit b l := by
  classical
  have hleast := Nat.isLeast_find ⟨k, h.1⟩
  refine ⟨_, hleast, hleast.1, ?_⟩
  intro j hj
  exact h.2 j (hj.trans_le (hleast.2 h.1))

/-- A text that is cut off is cut off at some first place. -/
lemma CutOff.exists_isLeast (h : CutOff limit b k) : ∃ l, IsLeast {k | CutOff limit b k} l := by
  obtain ⟨l, hleast, hl⟩ := h.exists_least
  exact ⟨l, hl, fun j hj => hleast.2 hj.1⟩

/-- The first place of a cut-off is the first place that exceeds the limit at all. -/
lemma isLeast_exceeds (h : IsLeast {k | CutOff limit b k} k) :
    IsLeast {k | Exceeds limit b k} k := by
  obtain ⟨l, hleast, hl⟩ := h.1.exists_least
  rwa [show k = l from le_antisymm (h.2 hl) (hleast.2 h.1.1)]

/-- Without a limit no text is cut off. -/
lemma not_cutOff_none : ¬CutOff none b k := by
  rintro ⟨⟨l, hl, -⟩, -⟩
  cases hl

/-- A text whose balance comes to zero is closed at some place. -/
lemma exists_closedAt (h : balance b (k + 1) = 0) : ∃ l, ClosedAt b l := by
  classical
  exact ⟨_, Nat.isLeast_find ⟨k, h⟩⟩

/-- Before the closer of the outermost comment the balance is not zero. -/
lemma ClosedAt.balance_ne_zero {j : Nat} (h : ClosedAt b k) (hj : j < k) :
    balance b (j + 1) ≠ 0 := by
  intro hzero
  exact absurd (h.2 hzero) (not_le.2 hj)

/-- The outermost comment is closed by a closer. -/
lemma ClosedAt.closesAt (h : ClosedAt b k) : ClosesAt b k := by
  have hpos := balance_pos fun j hj => h.balance_ne_zero hj
  have hzero : balance b (k + 1) = 0 := h.1
  rcases balance_succ_cases b k with ⟨-, e⟩ | ⟨hcloses, -⟩ | ⟨-, -, e⟩
  · omega
  · exact hcloses
  · omega

/-- A text that is not cut off keeps to the limit up to the closer of the outermost comment. -/
lemma ClosedAt.not_exceeds {j : Nat} (h : ClosedAt b k) (hcut : ∀ i, ¬CutOff limit b i)
    (hj : j ≤ k) : ¬Exceeds limit b j := by
  intro hexceeds
  exact hcut j ⟨hexceeds, fun i hi => h.balance_ne_zero (hi.trans_le hj)⟩

/-- Where the balance exceeds a limit for the first time an opener ends. -/
lemma exceeds_succ (h : Exceeds limit b (k + 1)) (hk : ¬Exceeds limit b k) : OpensAt b k := by
  obtain ⟨l, hl, hlt⟩ := h
  have hle : balance b k ≤ l.toNat := not_lt.1 fun h => hk ⟨l, hl, h⟩
  rcases balance_succ_cases b k with ⟨hopens, -⟩ | ⟨-, e⟩ | ⟨-, -, e⟩
  · exact hopens
  · omega
  · omega

/-- The machine has seen the greatest balance when it comes to the end of the comment. -/
lemma isGreatest_deepest (h : ClosedAt b k) :
    IsGreatest (balance b '' Set.Iic k) (Body.inside.trail (b.take (k + 1))).deepest := by
  have hlt := Nat.lt_of_succ_lt (lt_length_of_closesAt h.closesAt)
  have hfree : ∀ j < k, balance b (j + 1) ≠ 0 := fun j hj => h.balance_ne_zero hj
  have hnone : ∀ j ≤ k, ¬Exceeds none b j := fun _ _ ⟨_, hl, _⟩ => nomatch hl
  exact (passes_take hlt hfree hnone).2.deepest

/-- Behind a text that is neither closed nor cut off the machine keeps its whole balance. -/
lemma depth_trail (hopen : ∀ k, balance b (k + 1) ≠ 0) :
    ((Body.inside.trail b).depth : Int) = balance b b.length := by
  cases b with
  | nil => rfl
  | cons c cs =>
    have hlt : cs.length < (c :: cs).length := Nat.lt_succ_self _
    have hnone : ∀ j ≤ cs.length, ¬Exceeds none (c :: cs) j := fun _ _ ⟨_, hl, _⟩ => nomatch hl
    have hall : (c :: cs).take (cs.length + 1) = c :: cs := List.take_of_length_le hlt
    have hkeeps := (passes_take hlt (fun j _ => hopen j) hnone).2
    rw [hall] at hkeeps
    rw [hkeeps.depth]
    exact (balance_of_length_le (Nat.le_refl _)).symm

end

/-- Behind the outer opener the limit allows one comment or none. -/
lemma reaches_inside {σ : Type u} [Host σ] {o : Options} {h : σ} {b : List Char}
    (hlimit : ¬Exceeds o.maxDepth b 0) : Reaches o .entering h (.body .inside) h := by
  apply Reaches.single
  apply step_entering_of_not_forbids
  rintro ⟨l, hl, hle⟩
  refine hlimit ⟨l, hl, ?_⟩
  rw [balance_zero]
  omega

section

variable {σ : Type u} [BoundedHost σ] [Readable σ] {o : Options} {h : σ} {b : List Char} {k : Nat}

/-- The body is passed up to a place where it is neither closed nor cut off. -/
lemma reaches_take (ht : Readable.text h = b) (hk : k < b.length)
    (hopen : ∀ j < k, balance b (j + 1) ≠ 0) (hlimit : ∀ j ≤ k, ¬Exceeds o.maxDepth b j) :
    Reaches o .entering h (.body (Body.inside.trail (b.take (k + 1))))
      ((Host.advance false)^[k + 1] h) := by
  have hlength : (b.take (k + 1)).length = k + 1 := List.length_take_of_le hk
  have hsplit : Readable.text h = b.take (k + 1) ++ b.drop (k + 1) := by
    rw [ht, List.take_append_drop]
  have passed := reaches_trail hsplit (passes_take hk hopen hlimit).1
  rw [hlength] at passed
  exact (reaches_inside (hlimit 0 (Nat.zero_le k))).trans passed

/-- Behind `k` code points of a text the next one is seen. -/
lemma peek_iterate (ht : Readable.text h = b) (hk : k ≤ b.length) :
    Host.peek ((Host.advance false)^[k] h) = b[k]? := by
  have hlength : (b.take k).length = k := List.length_take_of_le hk
  have hsplit : Readable.text h = b.take k ++ b.drop k := by
    rw [ht, List.take_append_drop]
  have hrest := Readable.text_iterate false hsplit
  rw [hlength] at hrest
  rw [Readable.peek_eq, hrest, List.head?_drop]

/-- The scan is cut off where the balance exceeds the limit for the first time, before the star of
the opener that stands there. -/
theorem run_entering_of_exceeds (ht : Readable.text h = b)
    (hk : IsLeast {k | Exceeds o.maxDepth b k} k) (hopen : ∀ j < k, balance b (j + 1) ≠ 0) :
    ∃ l ∈ o.maxDepth,
      run o .entering h = (.error (.depthLimit l), (Host.advance false)^[k] h) := by
  cases k with
  | zero =>
    obtain ⟨l, hl, hlt⟩ := hk.1
    refine ⟨l, hl, run_of_stopped (step_entering_of_forbids hl ?_)⟩
    rw [balance_zero] at hlt
    omega
  | succ k =>
    -- The balance counts the opener at its parenthesis, the machine enters it at its star.
    have hbefore : ∀ j ≤ k, ¬Exceeds o.maxDepth b j := fun j hj hexceeds =>
      absurd (hk.2 hexceeds) (not_le.2 (Nat.lt_succ_of_le hj))
    have hopens := exceeds_succ hk.1 (hbefore k (Nat.le_refl k))
    have hlt := lt_length_of_opensAt hopens
    have hfree : ∀ j < k, balance b (j + 1) ≠ 0 := fun j hj => hopen j (Nat.lt_succ_of_lt hj)
    have hkeeps := (passes_take (Nat.lt_of_succ_lt hlt) hfree hbefore).2
    have hpeek : Host.peek ((Host.advance false)^[k + 1] h) = some '*' := by
      rw [peek_iterate ht hlt.le]
      exact hopens.2
    have hover := (hkeeps.overflows_iff hopens.2 (hbefore k (Nat.le_refl k))).2 hk.1
    obtain ⟨hstar, l, hl, hle⟩ := hover
    refine ⟨l, hl, ?_⟩
    rw [(reaches_take ht (Nat.lt_of_succ_lt hlt) hfree hbefore).run_eq]
    exact run_of_stopped (step_of_overflows hpeek hstar hl hle)

/-- The scan finds its token where the balance comes to zero for the first time. -/
theorem run_entering_of_closed (ht : Readable.text h = b) (hk : ClosedAt b k)
    (hlimit : ∀ j ≤ k, ¬Exceeds o.maxDepth b j) :
    run o .entering h = (.ok ⟨.comment, (Body.inside.trail (b.take (k + 1))).deepest⟩,
      report ((Host.advance false)^[k + 1] h)) := by
  have hfree : ∀ j < k, balance b (j + 1) ≠ 0 := fun j hj => hk.balance_ne_zero hj
  have hcloses := hk.closesAt
  have hlt := lt_length_of_closesAt hcloses
  have hkeeps := (passes_take (Nat.lt_of_succ_lt hlt) hfree hlimit).2
  have hpeek : Host.peek ((Host.advance false)^[k + 1] h) = some ')' := by
    rw [peek_iterate ht hlt.le]
    exact hcloses.2
  have hends := (hkeeps.ends_iff hcloses.2 (balance_pos hfree)).2 hk.1
  rw [(reaches_take ht (Nat.lt_of_succ_lt hlt) hfree hlimit).run_eq]
  exact run_of_stopped (step_of_ends hpeek hends)

/-- The scan runs to the end of the input if the balance neither comes to zero nor exceeds the
limit. -/
theorem run_entering_of_open (ht : Readable.text h = b) (hopen : ∀ k, balance b (k + 1) ≠ 0)
    (hlimit : ∀ k, ¬Exceeds o.maxDepth b k) :
    run o .entering h = (.error (.unterminated (Body.inside.trail b).depth),
      (Host.advance false)^[b.length] h) := by
  have hpeek : Host.peek ((Host.advance false)^[b.length] h) = none := by
    rw [peek_iterate ht (Nat.le_refl _)]
    exact List.getElem?_eq_none (Nat.le_refl _)
  have reached : Reaches o .entering h (.body (Body.inside.trail b))
      ((Host.advance false)^[b.length] h) := by
    cases b with
    | nil => exact reaches_inside (hlimit 0)
    | cons c cs =>
      have hlt : cs.length < (c :: cs).length := Nat.lt_succ_self _
      have hall : (c :: cs).take (cs.length + 1) = c :: cs := List.take_of_length_le hlt
      have passed := reaches_take ht hlt (fun j _ => hopen j) fun j _ => hlimit j
      rwa [hall] at passed
  rw [reached.run_eq]
  exact run_of_stopped (step_of_eof hpeek)

/-- A scan stops at the first place that exceeds the limit. -/
theorem scan_of_cutOff (hopener : behindBlanks o h = '(' :: '*' :: b)
    (hk : IsLeast {k | CutOff o.maxDepth b k} k) :
    ∃ l ∈ o.maxDepth, scan o h =
      (.error (.depthLimit l), (Host.advance false)^[k] (behindOpener o h)) := by
  rw [scan_of_opener hopener]
  exact run_entering_of_exceeds (text_behindOpener hopener) (isLeast_exceeds hk) hk.1.2

/-- A scan that is not cut off reports a token at the closer of the outermost comment. -/
theorem scan_of_closed (hopener : behindBlanks o h = '(' :: '*' :: b)
    (hcut : ∀ j, ¬CutOff o.maxDepth b j) (hk : ClosedAt b k) :
    scan o h = (.ok ⟨.comment, (Body.inside.trail (b.take (k + 1))).deepest⟩,
      report ((Host.advance false)^[k + 1] (behindOpener o h))) := by
  rw [scan_of_opener hopener]
  apply run_entering_of_closed (text_behindOpener hopener) hk
  intro j hj
  exact hk.not_exceeds hcut hj

/-- A scan that is not cut off and finds no closer comes to the end of the input. -/
theorem scan_of_open (hopener : behindBlanks o h = '(' :: '*' :: b)
    (hcut : ∀ j, ¬CutOff o.maxDepth b j) (hopen : ∀ k, balance b (k + 1) ≠ 0) :
    scan o h = (.error (.unterminated (Body.inside.trail b).depth),
      (Host.advance false)^[b.length] (behindOpener o h)) := by
  rw [scan_of_opener hopener]
  apply run_entering_of_open (text_behindOpener hopener) hopen
  intro k hexceeds
  exact hcut k ⟨hexceeds, fun j _ => hopen j⟩

/-- A scan that is not cut off is that of no limit. -/
theorem scan_eq_scan_none (hopener : behindBlanks o h = '(' :: '*' :: b)
    (hcut : ∀ j, ¬CutOff o.maxDepth b j) : scan o h = scan { o with maxDepth := none } h := by
  have hopener' : behindBlanks { o with maxDepth := none } h = '(' :: '*' :: b := hopener
  have hcut' : ∀ j, ¬CutOff none b j := fun _ => not_cutOff_none
  by_cases hclosed : ∃ k, balance b (k + 1) = 0
  · obtain ⟨k, hk⟩ := hclosed
    obtain ⟨k, hk⟩ := exists_closedAt hk
    rw [scan_of_closed hopener hcut hk, scan_of_closed hopener' hcut' hk]
    rfl
  · have hopen : ∀ k, balance b (k + 1) ≠ 0 := fun k hk => hclosed ⟨k, hk⟩
    rw [scan_of_open hopener hcut hopen, scan_of_open hopener' hcut' hopen]
    rfl

/-- The limit is reported exactly if the balance exceeds it before it comes to zero. -/
theorem verdict_eq_depthLimit_iff {l : UInt64} (hopener : behindBlanks o h = '(' :: '*' :: b) :
    (scan o h).1 = .error (.depthLimit l) ↔
      l ∈ o.maxDepth ∧ ∃ k, (l.toNat : Int) < balance b k ∧ ∀ j < k, balance b (j + 1) ≠ 0 := by
  constructor
  · intro hverdict
    by_cases hcut : ∃ k, CutOff o.maxDepth b k
    · obtain ⟨k, hk⟩ := hcut
      obtain ⟨k, hleast⟩ := hk.exists_isLeast
      obtain ⟨l', hl', hscan⟩ := scan_of_cutOff hopener hleast
      rw [hscan] at hverdict
      cases hverdict
      obtain ⟨⟨l', hl'', hlt⟩, hbefore⟩ := hleast.1
      cases Option.mem_unique hl' hl''
      exact ⟨hl', k, hlt, hbefore⟩
    · have hnot : ∀ k, ¬CutOff o.maxDepth b k := fun k hk => hcut ⟨k, hk⟩
      by_cases hclosed : ∃ k, balance b (k + 1) = 0
      · obtain ⟨k, hk⟩ := hclosed
        obtain ⟨k, hk⟩ := exists_closedAt hk
        rw [scan_of_closed hopener hnot hk] at hverdict
        cases hverdict
      · rw [scan_of_open hopener hnot fun k hk => hclosed ⟨k, hk⟩] at hverdict
        cases hverdict
  · rintro ⟨hl, k, hlt, hbefore⟩
    have hcut : CutOff o.maxDepth b k := ⟨⟨l, hl, hlt⟩, hbefore⟩
    obtain ⟨k, hleast⟩ := hcut.exists_isLeast
    obtain ⟨l', hl', hscan⟩ := scan_of_cutOff hopener hleast
    cases Option.mem_unique hl hl'
    rw [hscan]

/-- A scan that is not cut off finds a token exactly if the balance comes to zero. -/
theorem exists_token_iff (hopener : behindBlanks o h = '(' :: '*' :: b)
    (hcut : ∀ j, ¬CutOff o.maxDepth b j) :
    (∃ t, (scan o h).1 = .ok t) ↔ ∃ k, balance b (k + 1) = 0 := by
  constructor
  · rintro ⟨t, ht⟩
    by_contra hclosed
    rw [scan_of_open hopener hcut fun k hk => hclosed ⟨k, hk⟩] at ht
    cases ht
  · rintro ⟨k, hk⟩
    obtain ⟨k, hk⟩ := exists_closedAt hk
    exact ⟨_, congrArg Prod.fst (scan_of_closed hopener hcut hk)⟩

end

end NestedComment
