import NestedComment.Proofs.Scan.Depth
import NestedComment.Proofs.Scan.Termination

/-!
# What depth costs

Every comment that is open at once with others costs a scan the two code points of its opener, and
two more to close it again. A star may be shared by an opener and a closer, and what is held has
counted already but is not yet taken. `Body.Paid` says for each state what the code points that were
taken amount to; a step keeps it (`paid_of_going`) and so does a scan (`Reaches.paid`). Hence the
depths of a scan are bounded by the code points that it takes, and fit a word where these do
(`depth_bounds`).
-/

namespace NestedComment.Scan

universe u

/-- The number of calls that take a code point into the token. -/
def taken {σ : Type u} (calls : List (Call σ)) : Nat :=
  calls.countP fun a => a.action = .advance false

/-- Whatever is taken is moved past. -/
lemma taken_le_moves {σ : Type u} (calls : List (Call σ)) : taken calls ≤ moves calls := by
  apply List.countP_mono_left
  intro a _ ha
  rw [of_decide_eq_true ha]
  rfl

namespace Body

/-- What `n` code points that were taken, and the one that is seen at the cursor, amount to. Two pay
for each comment that has been open at once with the others, and two more for each of them that is
no longer open. -/
inductive Paid (n : Nat) (seen : Option Char) (b : Body) : Prop where
  /-- Nothing of a delimiter is kept, and what is seen has not counted. -/
  | settled : b.half = .neither → 2 * b.deepest ≤ n → 4 * b.deepest ≤ n + 2 * b.depth + 1 →
    Paid n seen b
  /-- The star that is seen has opened a comment. -/
  | opened : b.half = .neither → seen = some '*' → 2 * b.deepest ≤ n + 1 →
    4 * b.deepest ≤ n + 2 * b.depth + 1 → Paid n seen b
  /-- The parenthesis that is seen has closed a comment. -/
  | closed : b.half = .neither → seen = some ')' → 2 * b.deepest ≤ n →
    4 * b.deepest ≤ n + 2 * b.depth + 2 → Paid n seen b
  /-- A star was taken and is kept. -/
  | star : b.half = .closer → 2 * b.deepest ≤ n → 4 * b.deepest ≤ n + 2 * b.depth → Paid n seen b
  /-- A parenthesis was taken and is kept. -/
  | paren : b.half = .opener → 2 * b.deepest < n → 4 * b.deepest ≤ n + 2 * b.depth → Paid n seen b

section

variable {n : Nat} {seen : Option Char} {limit : Option UInt64} {b q : Body} {c : Char}

/-- Two code points pay for each comment that has been open, and one of them may only be seen. -/
lemma Paid.two_mul_le (paid : b.Paid n seen) : 2 * b.deepest ≤ n + 1 := by
  cases paid with
  | settled _ hopeners _ => exact Nat.le_succ_of_le hopeners
  | opened _ _ hopeners _ => exact hopeners
  | closed _ _ hopeners _ => exact Nat.le_succ_of_le hopeners
  | star _ hopeners _ => exact Nat.le_succ_of_le hopeners
  | paren _ hopeners _ => exact hopeners.le.trans (Nat.le_succ n)

/-- Where the code points that were taken fit a word, one comment more fits it too. -/
lemma Paid.deeper_lt (paid : b.Paid n seen) (hle : b.depth ≤ b.deepest) (hn : n < UInt64.size) :
    b.deeper.deepest < UInt64.size := by
  have hopeners := paid.two_mul_le
  show max b.deepest (b.depth + 1) < UInt64.size
  rw [UInt64.size] at hn ⊢
  omega

/-- The outer opener has paid for the outermost comment. -/
lemma paid_inside (hn : 2 ≤ n) : inside.Paid n seen := by
  apply Paid.settled rfl hn
  show 4 ≤ n + 2 + 1
  omega

/-- A code point that is taken pays for what it has counted for. -/
lemma Paid.take (paid : b.Paid n (some c)) (hhalf : b.half = .neither) :
    Paid (n + 1) seen { b with half := halfOf c } := by
  cases paid with
  | settled _ hopeners hclosers =>
    -- Only here may `c` be any code point: `opened` and `closed` say which one is seen.
    by_cases hstar : c = '*'
    · apply Paid.star (halfOf_eq_closer.2 hstar)
      · exact Nat.le_succ_of_le hopeners
      · show 4 * b.deepest ≤ n + 1 + 2 * b.depth
        omega
    · by_cases hparen : c = '('
      · apply Paid.paren (halfOf_eq_opener.2 hparen)
        · exact Nat.lt_succ_of_le hopeners
        · show 4 * b.deepest ≤ n + 1 + 2 * b.depth
          omega
      · apply Paid.settled
        · simp [halfOf, hstar, hparen]
        · exact Nat.le_succ_of_le hopeners
        · show 4 * b.deepest ≤ n + 1 + 2 * b.depth + 1
          omega
  | opened _ hseen hopeners hclosers =>
    cases hseen
    refine .star rfl hopeners ?_
    show 4 * b.deepest ≤ n + 1 + 2 * b.depth
    omega
  | closed _ hseen hopeners hclosers =>
    cases hseen
    refine .settled rfl (Nat.le_succ_of_le hopeners) ?_
    show 4 * b.deepest ≤ n + 1 + 2 * b.depth + 1
    omega
  | star hkept _ _ => cases hhalf.symm.trans hkept
  | paren hkept _ _ => cases hhalf.symm.trans hkept

/-- A code point that completes no delimiter counts for nothing. -/
lemma Paid.drop (paid : b.Paid n seen) (hhalf : b.half ≠ .neither) :
    Paid n seen { b with half := .neither } := by
  cases paid with
  | settled hkept _ _ => exact absurd hkept hhalf
  | opened hkept _ _ _ => exact absurd hkept hhalf
  | closed hkept _ _ _ => exact absurd hkept hhalf
  | star _ hopeners hclosers => exact .settled rfl hopeners (Nat.le_succ_of_le hclosers)
  | paren _ hopeners hclosers => exact .settled rfl hopeners.le (Nat.le_succ_of_le hclosers)

/-- The star of an opener, seen behind its parenthesis, counts for one more comment. -/
lemma Paid.deeper (paid : b.Paid n seen) (hhalf : b.half = .opener) (hle : b.depth ≤ b.deepest) :
    b.deeper.Paid n (some '*') := by
  cases paid
  case paren _ hopeners hclosers =>
    refine .opened rfl rfl ?_ ?_
    · show 2 * max b.deepest (b.depth + 1) ≤ n + 1
      omega
    · show 4 * max b.deepest (b.depth + 1) ≤ n + 2 * (b.depth + 1) + 1
      omega
  all_goals simp_all only [reduceCtorEq]

/-- The parenthesis of a closer, seen behind its star, counts for one comment less. -/
lemma Paid.shallower (paid : b.Paid n seen) (hhalf : b.half = .closer) (hpos : 0 < b.depth) :
    b.shallower.Paid n (some ')') := by
  cases paid
  case star _ hopeners hclosers =>
    refine .closed rfl rfl hopeners ?_
    show 4 * b.deepest ≤ n + 2 * (b.depth - 1) + 2
    omega
  all_goals simp_all only [reduceCtorEq]

/-- A code point that is held counts for what it opens or closes. -/
lemma Paid.hold (paid : b.Paid n (some c)) (bounded : b.Bounded limit)
    (h : b.see limit c = .hold q) : q.Paid n (some c) := by
  rcases held_cases h with ⟨hhalf, rfl⟩ | ⟨hhalf, rfl, rfl, -⟩ | ⟨hhalf, rfl, rfl, -⟩
  · exact paid.drop hhalf
  · exact paid.deeper hhalf bounded.depth_le
  · exact paid.shallower hhalf bounded.depth_pos

end

end Body

/-- What the code points that were taken amount to in each phase of a scan. -/
def Phase.Paid (n : Nat) (seen : Option Char) : Phase → Prop
  | .leading => True
  | .opening => 1 ≤ n
  | .entering => 2 ≤ n
  | .body b => b.Paid n seen

section

variable {σ : Type u} [Host σ] {o : Options} {p q : Phase} {b : Body} {v : Verdict} {t : Token}
  {r s : Recorded σ}

/-- Moving without skipping takes one code point. -/
lemma taken_advance (r : Recorded σ) :
    taken (Host.advance false r).calls.toList = taken r.calls.toList + 1 := by
  rw [calls_advance, taken, List.countP_append]
  rfl

/-- Reporting a token takes one code point. -/
lemma taken_report (r : Recorded σ) :
    taken (report r).calls.toList = taken r.calls.toList + 1 := by
  rw [calls_report, taken, List.countP_append]
  rfl

/-- A step that goes on keeps what the code points that were taken amount to. -/
theorem paid_of_going (hs : step o p r = .going q s) (bounded : p.Bounded o.maxDepth)
    (paid : p.Paid (taken r.calls.toList) (Host.peek r)) :
    q.Paid (taken s.calls.toList) (Host.peek s) := by
  rcases step_going_cases hs with ⟨hr, rfl⟩ | ⟨skip, c, hc, hr, rfl⟩
  · obtain ⟨b, rfl, -, rfl | ⟨b', rfl, -⟩⟩ := Phase.hold_cases hr
    · obtain ⟨hb, -⟩ := entered_of_going hs
      cases hb
      exact Body.paid_inside paid
    · cases hc : Host.peek s with
      | none =>
        rw [hc] at hr
        cases hr
      | some c =>
        rw [hc] at hr
        obtain ⟨b'', hb, hq⟩ := Reaction.map_eq_hold.1 hr
        cases hq
        have before : b'.Paid (taken s.calls.toList) (some c) := hc ▸ paid
        exact before.hold (bounded b' rfl) hb
  · rcases Phase.consume_cases hr with ⟨rfl, rfl, rfl, -⟩ | ⟨rfl, rfl, rfl, -⟩ |
      ⟨rfl, rfl, rfl, -⟩ | ⟨b, rfl, hhalf, rfl, rfl⟩
    · trivial
    · rw [taken_advance]
      exact Nat.succ_le_succ (Nat.zero_le _)
    · rw [taken_advance]
      exact Nat.succ_le_succ paid
    · rw [taken_advance]
      have before : b.Paid (taken r.calls.toList) (some c) := hc ▸ paid
      exact before.take hhalf

/-- The code points that were taken pay for the comments all along a scan. -/
theorem Reaches.paid (first : Reaches o p r q s) (bounded : p.Bounded o.maxDepth)
    (paid : p.Paid (taken r.calls.toList) (Host.peek r)) :
    q.Paid (taken s.calls.toList) (Host.peek s) := by
  induction first with
  | refl => exact paid
  | go hs _ ih => exact ih (bounded_of_going hs bounded) (paid_of_going hs bounded paid)

/-- A scan that is under way has moved no more often than the measure of its host allows. -/
lemma Reaches.moves_le {m : σ → Nat}
    (hadvance : ∀ skip (h : σ), Host.eof h = false → m (Host.advance skip h) < m h)
    (first : Reaches o p r q s) :
    moves s.calls.toList + m s.host ≤ moves r.calls.toList + m r.host := by
  induction first with
  | refl => exact le_rfl
  | go hs _ ih => exact ih.trans (moves_of_going hadvance hs)

/-- The code points of a token pay for the openers and the closers of its deepest comments. -/
lemma four_mul_le_of_accept {f : Body} {n : Nat} {seen : Option Char} {c : Char}
    (paid : b.Paid n seen) (hpos : 0 < b.depth) (hb : b.see o.maxDepth c = .accept f) :
    b.depth = 1 ∧ f.depth = 0 ∧ 4 * f.deepest ≤ n + 2 := by
  obtain ⟨-, hhalf, rfl, hzero⟩ := Body.see_of_accept hb
  have hone : b.depth = 1 := by
    have : b.depth - 1 = 0 := hzero
    omega
  refine ⟨hone, hzero, ?_⟩
  cases paid
  case star _ _ hclosers =>
    rw [hone] at hclosers
    exact hclosers
  all_goals simp_all only [reduceCtorEq]

/-- The depths of a scan, on every host and under every limit. Inside the comment at least one
comment is open, and no more than have been open at once. These are no more than the limit allows,
and two code points were taken for each, but for one that may still be at the cursor. So closing a
comment takes one away from a number that is not zero; and if the input has no more code points than
a word counts, opening one more overflows no word. A scan that finds a token leaves no comment open,
and has taken four code points for each level of the token, but for a star that may be shared. -/
theorem depth_bounds (o : Options) (h : σ) :
    (∀ b r, Reaches o .leading (Recorded.start h) (.body b) r →
      1 ≤ b.depth ∧ b.depth ≤ b.deepest ∧ (∀ l ∈ o.maxDepth, b.deepest ≤ l.toNat) ∧
        2 * b.deepest ≤ taken r.calls.toList + 1 ∧ b.shallower.depth + 1 = b.depth) ∧
    (∀ m : σ → Nat, (∀ skip g, Host.eof g = false → m (Host.advance skip g) < m g) →
      m h < UInt64.size → ∀ b r, Reaches o .leading (Recorded.start h) (.body b) r →
        b.deeper.depth < UInt64.size ∧ b.deeper.deepest < UInt64.size) ∧
    ∀ t r, Returns o .leading (Recorded.start h) (.ok t) r →
      ∃ b f k, Reaches o .leading (Recorded.start h) (.body b) k ∧ Host.peek k = some ')' ∧
        b.see o.maxDepth ')' = .accept f ∧ b.depth = 1 ∧ f.depth = 0 ∧ t.deepest = f.deepest ∧
        r = report k ∧ 4 * t.deepest ≤ taken r.calls.toList + 1 := by
  have hbody {b : Body} {r : Recorded σ}
      (reached : Reaches o .leading (Recorded.start h) (.body b) r) :
      b.Bounded o.maxDepth ∧ b.Paid (taken r.calls.toList) (Host.peek r) :=
    ⟨reached.bounded Phase.bounded_leading b rfl, reached.paid Phase.bounded_leading trivial⟩
  refine ⟨fun b r reached => ?_, fun m hadvance hsize b r reached => ?_, fun t r returns => ?_⟩
  · obtain ⟨bounded, paid⟩ := hbody reached
    exact ⟨bounded.depth_pos, bounded.depth_le, bounded.deepest_le, paid.two_mul_le,
      Nat.sub_add_cancel bounded.depth_pos⟩
  · obtain ⟨bounded, paid⟩ := hbody reached
    have hmoves : moves r.calls.toList + m r.host ≤ m h := by
      simpa [Recorded.start, moves] using reached.moves_le hadvance
    have htaken : taken r.calls.toList < UInt64.size :=
      calc taken r.calls.toList
        _ ≤ moves r.calls.toList := taken_le_moves _
        _ ≤ m h := (Nat.le_add_right _ _).trans hmoves
        _ < UInt64.size := hsize
    have hdeepest : b.deeper.deepest < UInt64.size := paid.deeper_lt bounded.depth_le htaken
    exact ⟨(le_max_right _ _).trans_lt hdeepest, hdeepest⟩
  · obtain ⟨b, f, k, reached, hpeek, hb, rfl, rfl⟩ := accepted_of_returns returns
    obtain ⟨bounded, paid⟩ := hbody reached
    obtain ⟨hone, hzero, hclosers⟩ := four_mul_le_of_accept paid bounded.depth_pos hb
    refine ⟨b, f, k, reached, hpeek, hb, hone, hzero, rfl, rfl, ?_⟩
    rw [taken_report]
    exact hclosers

/-- An inner comment shares its star with its own closer. Neither bound leaves room then: two
comments are open when three code points were taken, and seven are all that the token has. -/
theorem depth_bounds_of_shared_star :
    let c := Cursor.ofInput [0x28, 0x2A, 0x28, 0x2A, 0x29, 0x2A, 0x29]
    (∀ skip (d : Cursor), Host.eof d = false →
      BoundedHost.size (Host.advance skip d) < BoundedHost.size d) ∧
      BoundedHost.size c < UInt64.size ∧
      (∃ (b : Body) (k : Recorded Cursor), Reaches {} .leading (Recorded.start c) (.body b) k ∧
        2 * b.deepest = taken k.calls.toList + 1) ∧
      ∃ (b : Body) (r k : Recorded Cursor),
        Returns {} .leading (Recorded.start c) (.ok ⟨.comment, 2⟩) r ∧
        4 * 2 = taken r.calls.toList + 1 ∧ Reaches {} .leading (Recorded.start c) (.body b) k ∧
        b.depth = 1 ∧ b.deepest = 2 ∧ b.deeper.depth < UInt64.size := by
  intro c
  have hsize : BoundedHost.size c < UInt64.size := by decide +kernel
  have hverdict : (scan {} (Recorded.start c)).1 = .ok ⟨.comment, 2⟩ := by decide +kernel
  have htaken : 4 * 2 = taken (scan {} (Recorded.start c)).2.calls.toList + 1 := by decide +kernel
  have hopened : ∃ (b : Body) (k : Recorded Cursor),
      Reaches {} .leading (Recorded.start c) (.body b) k ∧
        2 * b.deepest = taken k.calls.toList + 1 :=
    ⟨⟨.neither, 2, 2⟩, _, .go rfl (.go rfl (.go rfl (.go rfl (.go rfl .refl)))), rfl⟩
  have returns : Returns {} .leading (Recorded.start c) (.ok ⟨.comment, 2⟩)
      (scan {} (Recorded.start c)).2 := returns_iff_run.2 (Prod.ext hverdict rfl)
  obtain ⟨-, hwords, hfound⟩ := depth_bounds {} c
  obtain ⟨b, f, k, reached, -, hb, hone, -, hdeepest, -, -⟩ := hfound _ _ returns
  obtain ⟨-, -, rfl, -⟩ := Body.see_of_accept hb
  obtain ⟨hword, -⟩ := hwords BoundedHost.size BoundedHost.size_advance_lt hsize b k reached
  exact ⟨BoundedHost.size_advance_lt, hsize, hopened, b, _, k, returns, htaken, reached, hone,
    hdeepest.symm, hword⟩

end

end NestedComment.Scan
