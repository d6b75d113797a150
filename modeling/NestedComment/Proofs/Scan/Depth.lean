import Mathlib.Order.Nat
import NestedComment.Proofs.Scan.Round

/-!
# Bounds on depth

All that a step does to the comments that are open is `Body.Follows`: it opens one more, closes one,
or leaves them as they are. So inside the outermost comment at least one is open, never more than
have been open at once, and these never more than the limit allows (`Body.Bounded`,
`Reaches.bounded`), and the most that have been open at once never gets less
(`Reaches.deepest_le`). What a scan reports is what its last state has seen (`body_of_returns`).
-/

namespace NestedComment.Scan

universe u

namespace Body

/-- What one step makes of the comments that are open. -/
inductive Follows (limit : Option UInt64) (b : Body) : Body → Prop where
  /-- No comment is opened or closed. -/
  | same (half : Half) : Follows limit b { b with half }
  | deeper : ¬Forbids limit b.depth → Follows limit b b.deeper
  | shallower : 0 < b.shallower.depth → Follows limit b b.shallower

/-- Some comment is open, and no more than have been or may be open at once. -/
structure Bounded (limit : Option UInt64) (b : Body) : Prop where
  depth_pos : 0 < b.depth
  depth_le : b.depth ≤ b.deepest
  deepest_le : ∀ l ∈ limit, b.deepest ≤ l.toNat

section

variable {limit : Option UInt64} {b q : Body} {c : Char}

/-- Opening a comment goes on only if the limit allows it, with one comment more. -/
lemma enter_of_hold (h : b.enter limit = .hold q) : q = b.deeper ∧ ¬Forbids limit b.depth := by
  have hlimit : ¬Forbids limit b.depth := by
    rintro ⟨l, hl, hle⟩
    rw [enter_of_forbids hl hle] at h
    cases h
  rw [enter_of_not_forbids hlimit] at h
  cases h
  exact ⟨rfl, hlimit⟩

/-- Closing a comment goes on only if another one is open around it. -/
lemma leave_of_hold (h : b.leave = .hold q) : q = b.shallower ∧ 0 < b.shallower.depth := by
  rw [leave] at h
  split at h
  · cases h
  · next hdepth =>
    cases h
    exact ⟨rfl, Nat.pos_of_ne_zero hdepth⟩

/-- All that a code point which is held does: it opens one more comment, closes one, or completes no
delimiter. -/
lemma held_cases (h : b.see limit c = .hold q) :
    (b.half ≠ .neither ∧ q = { b with half := .neither }) ∨
      (b.half = .opener ∧ c = '*' ∧ q = b.deeper ∧ ¬Forbids limit b.depth) ∨
      (b.half = .closer ∧ c = ')' ∧ q = b.shallower ∧ 0 < b.shallower.depth) := by
  rw [see] at h
  split at h
  · cases h
  · next hhalf =>
    split at h
    · next hc => exact .inr (.inr ⟨hhalf, hc, leave_of_hold h⟩)
    · cases h
      exact .inl ⟨by simp [hhalf], rfl⟩
  · next hhalf =>
    split at h
    · next hc => exact .inr (.inl ⟨hhalf, hc, enter_of_hold h⟩)
    · cases h
      exact .inl ⟨by simp [hhalf], rfl⟩

/-- A code point that is held follows one of the ways to open and close comments. -/
lemma follows_of_hold (h : b.see limit c = .hold q) : b.Follows limit q := by
  rcases held_cases h with ⟨-, rfl⟩ | ⟨-, -, rfl, hlimit⟩ | ⟨-, -, rfl, hpos⟩
  · exact .same .neither
  · exact .deeper hlimit
  · exact .shallower hpos

/-- The outermost comment is open alone. -/
lemma bounded_inside (h : ¬Forbids limit 0) : inside.Bounded limit := by
  refine ⟨Nat.one_pos, le_rfl, ?_⟩
  intro l hl
  exact Nat.pos_of_ne_zero fun hzero => h ⟨l, hl, hzero.le⟩

/-- No step leaves the bounds. -/
lemma Follows.bounded (follows : b.Follows limit q) (h : b.Bounded limit) : q.Bounded limit := by
  cases follows with
  | same half => exact ⟨h.depth_pos, h.depth_le, h.deepest_le⟩
  | deeper hlimit =>
    refine ⟨Nat.succ_pos _, le_max_right _ _, ?_⟩
    intro l hl
    exact max_le (h.deepest_le l hl) (not_le.1 fun hle => hlimit ⟨l, hl, hle⟩)
  | shallower hpos => exact ⟨hpos, (Nat.sub_le _ _).trans h.depth_le, h.deepest_le⟩

/-- No step forgets how many comments have been open at once. -/
lemma Follows.deepest_le (follows : b.Follows limit q) : b.deepest ≤ q.deepest := by
  cases follows with
  | same half => exact le_rfl
  | deeper hlimit => exact le_max_left _ _
  | shallower hpos => exact le_rfl

end

end Body

/-- A scan that has come inside the comment keeps to the bounds. -/
def Phase.Bounded (limit : Option UInt64) (p : Phase) : Prop :=
  ∀ b, p = .body b → b.Bounded limit

/-- There is nothing to be bounded before the comment. -/
lemma Phase.bounded_leading {limit : Option UInt64} : Phase.leading.Bounded limit := by
  intro b hb
  cases hb

section

variable {σ : Type u} [Host σ] {o : Options} {p q : Phase} {b : Body} {h g : σ} {v : Verdict}
  {t : Token}

/-- All that a step does inside the comment. -/
lemma follows_of_going (hs : step o (.body b) h = .going q g) :
    ∃ b', q = .body b' ∧ b.Follows o.maxDepth b' := by
  rcases step_going_cases hs with ⟨hr, -⟩ | ⟨skip, c, -, hr, -⟩
  · cases hc : Host.peek h with
    | none =>
      rw [hc] at hr
      cases hr
    | some c =>
      rw [hc] at hr
      obtain ⟨b', hb, rfl⟩ := Reaction.map_eq_hold.1 hr
      exact ⟨b', rfl, Body.follows_of_hold hb⟩
  · obtain ⟨b', hb, rfl⟩ := Reaction.map_eq_consume.1 hr
    obtain ⟨-, -, rfl⟩ := Body.see_of_consume hb
    exact ⟨_, rfl, .same _⟩

/-- Behind the outer opener the outermost comment is open. -/
lemma entered_of_going (hs : step o .entering h = .going q g) :
    q = .body .inside ∧ ¬Body.Forbids o.maxDepth 0 := by
  have hlimit : ¬Body.Forbids o.maxDepth 0 := by
    rintro ⟨l, hl, hle⟩
    rw [step_entering_of_forbids hl hle] at hs
    cases hs
  rw [step_entering_of_not_forbids hlimit] at hs
  cases hs
  exact ⟨rfl, hlimit⟩

/-- The body of a comment is entered only from behind the outer opener. -/
lemma inside_of_going (hs : step o p h = .going (.body b) g) : p.Inside := by
  rcases step_going_cases hs with ⟨hr, -⟩ | ⟨skip, c, -, hr, -⟩
  · obtain ⟨_, -, -, rfl | ⟨_, rfl, -⟩⟩ := Phase.hold_cases hr
    · trivial
    · trivial
  · rcases Phase.consume_cases hr with ⟨-, hq, -⟩ | ⟨-, hq, -⟩ | ⟨-, hq, -⟩ | ⟨_, rfl, -⟩
    · cases hq
    · cases hq
    · cases hq
    · trivial

/-- A step that goes on stays in the bounds. -/
lemma bounded_of_going (hs : step o p h = .going q g) (bounded : p.Bounded o.maxDepth) :
    q.Bounded o.maxDepth := by
  rintro b' rfl
  cases p with
  | leading => exact False.elim (inside_of_going hs)
  | opening => exact False.elim (inside_of_going hs)
  | entering =>
    obtain ⟨hb, hlimit⟩ := entered_of_going hs
    cases hb
    exact Body.bounded_inside hlimit
  | body b =>
    obtain ⟨_, hb, follows⟩ := follows_of_going hs
    cases hb
    exact follows.bounded (bounded b rfl)

/-- A scan stays in the bounds all along. -/
theorem Reaches.bounded (first : Reaches o p h q g) (bounded : p.Bounded o.maxDepth) :
    q.Bounded o.maxDepth := by
  induction first with
  | refl => exact bounded
  | go hs _ ih => exact ih (bounded_of_going hs bounded)

/-- Inside the comment a scan stays there, and the most that have been open at once never gets
less. -/
theorem Reaches.deepest_le (first : Reaches o (.body b) h q g) :
    ∃ b', q = .body b' ∧ b.deepest ≤ b'.deepest := by
  generalize hp : Phase.body b = p at first
  induction first generalizing b with
  | refl => exact ⟨b, hp.symm, le_rfl⟩
  | go hs _ ih =>
    subst hp
    obtain ⟨b', rfl, follows⟩ := follows_of_going hs
    obtain ⟨b'', rfl, hle⟩ := ih rfl
    exact ⟨b'', rfl, follows.deepest_le.trans hle⟩

/-- A token is found at a parenthesis that closes the outermost comment. -/
theorem accepted_of_returns (returns : Returns o p h (.ok t) g) :
    ∃ b f k, Reaches o p h (.body b) k ∧ Host.peek k = some ')' ∧
      b.see o.maxDepth ')' = .accept f ∧ t = ⟨.comment, f.deepest⟩ ∧ g = report k := by
  obtain ⟨q, k, reached, hs⟩ := stopped_of_returns returns
  rcases step_stopped_cases hs with ⟨reason, -, hv, -⟩ | ⟨f, hc, hr, hv, rfl⟩
  · cases hv
  · cases hv
    obtain ⟨b, c, rfl, hc', hb⟩ := Phase.body_of_accept hr
    cases hc'
    exact ⟨b, f, k, reached, hc, hb, rfl, rfl⟩

/-- The nesting of a token is the most that have been open at once before its last code point. -/
theorem body_of_returns (returns : Returns o p h (.ok t) g) :
    ∃ b k, Reaches o p h (.body b) k ∧ t = ⟨.comment, b.deepest⟩ ∧ g = report k := by
  obtain ⟨b, f, k, reached, -, hb, rfl, rfl⟩ := accepted_of_returns returns
  obtain ⟨-, -, rfl, -⟩ := Body.see_of_accept hb
  exact ⟨b, k, reached, rfl, rfl⟩

/-- At least the outermost comment is counted, and no more than the limit allows. -/
theorem deepest_of_returns (returns : Returns o p h (.ok t) g) (bounded : p.Bounded o.maxDepth) :
    0 < t.deepest ∧ ∀ l ∈ o.maxDepth, t.deepest ≤ l.toNat := by
  obtain ⟨b, k, reached, rfl, -⟩ := body_of_returns returns
  have last := reached.bounded bounded b rfl
  exact ⟨last.depth_pos.trans_le last.depth_le, last.deepest_le⟩

end

end NestedComment.Scan
