import Mathlib.Logic.Function.Iterate
import NestedComment.Scan.Run

/-!
# Scans under way

`Reaches` relates two places of one scan: from the first the scan gets to the second without coming
to a verdict. It is defined on every host. On a bounded host what a scan comes to does not depend on
the place from which it is watched (`Reaches.run_eq`), and what moving keeps holds at every place
that is reached (`Reaches.preserves`). From behind the outer opener on a scan skips nothing
(`run_inside`).
-/

namespace NestedComment.Scan

universe u

/-- A scan in phase `p` on the host `h` gets to phase `q` on the host `g`. -/
inductive Reaches {σ : Type u} [Host σ] (o : Options) : Phase → σ → Phase → σ → Prop where
  | refl {p : Phase} {h : σ} : Reaches o p h p h
  | go {p q r : Phase} {h g k : σ} :
    step o p h = .going q g → Reaches o q g r k → Reaches o p h r k

section

variable {σ : Type u} [Host σ] {o : Options} {p q r : Phase} {h g k : σ} {v : Verdict}

/-- A step that goes on reaches the next phase. -/
lemma Reaches.single (hs : step o p h = .going q g) : Reaches o p h q g :=
  .go hs .refl

/-- What is reached from a place on the way is reached from the start. -/
lemma Reaches.trans (first : Reaches o p h q g) (last : Reaches o q g r k) :
    Reaches o p h r k := by
  induction first with
  | refl => exact last
  | go hs _ ih => exact .go hs (ih last)

/-- A scan gets anywhere but to its start by a last step. -/
lemma Reaches.last_cases (reached : Reaches o p h r k) :
    (r = p ∧ k = h) ∨ ∃ q g, Reaches o p h q g ∧ step o q g = .going r k := by
  induction reached with
  | refl => exact .inl ⟨rfl, rfl⟩
  | go hs _ ih =>
    rcases ih with ⟨rfl, rfl⟩ | ⟨q, g, reached, hlast⟩
    · exact .inr ⟨_, _, .refl, hs⟩
    · exact .inr ⟨q, g, .go hs reached, hlast⟩

/-- Behind the parenthesis of the outer opener a scan has just taken it. -/
lemma paren_of_reaches (reached : Reaches o .leading h .opening k) :
    ∃ g, Reaches o .leading h .leading g ∧ Host.peek g = some '(' ∧ k = Host.advance false g := by
  rcases reached.last_cases with ⟨hphase, -⟩ | ⟨q, g, before, hs⟩
  · cases hphase
  · rcases step_going_cases hs with ⟨hr, -⟩ | ⟨skip, c, hc, hr, rfl⟩
    · obtain ⟨b, hb, -⟩ := Phase.hold_cases hr
      cases hb
    · rcases Phase.consume_cases hr with ⟨-, hq, -⟩ | ⟨rfl, -, rfl, rfl⟩ | ⟨-, hq, -⟩ |
        ⟨b, -, -, -, hq⟩
      · cases hq
      · exact ⟨g, before, hc, rfl⟩
      · cases hq
      · cases hq

/-- What moving keeps holds wherever a scan gets to. -/
lemma Reaches.preserves {P : σ → Prop}
    (hadvance : ∀ skip h, Host.eof h = false → P h → P (Host.advance skip h))
    (first : Reaches o p h q g) (h0 : P h) : P g := by
  induction first with
  | refl => exact h0
  | go hs _ ih =>
    apply ih
    rcases step_going_cases hs with ⟨-, rfl⟩ | ⟨skip, c, hc, -, rfl⟩
    · exact h0
    · exact hadvance skip _ (Host.eof_eq_false_of_peek hc) h0

/-- A scan that comes to a verdict does so in some last step. -/
lemma stopped_of_returns (returns : Returns o p h v g) :
    ∃ q k, Reaches o p h q k ∧ step o q k = .stopped v g := by
  induction returns with
  | stop hs => exact ⟨_, _, .refl, hs⟩
  | go hs _ ih =>
    obtain ⟨q, k, reached, hstop⟩ := ih
    exact ⟨q, k, .go hs reached, hstop⟩

end

section

variable {σ : Type u} [BoundedHost σ] {o : Options} {p q : Phase} {h g : σ}

/-- A scan comes to the same verdict from every place on its way. -/
lemma Reaches.run_eq (first : Reaches o p h q g) : run o p h = run o q g := by
  induction first with
  | refl => rfl
  | go hs _ ih => rw [run_of_going hs, ih]

/-- A scan that is under way never has more before it than where it started. -/
lemma Reaches.size_le (first : Reaches o p h q g) : BoundedHost.size g ≤ BoundedHost.size h :=
  first.preserves (P := fun g => BoundedHost.size g ≤ BoundedHost.size h)
    (fun skip g he hg => Nat.le_trans (Nat.le_of_lt (BoundedHost.size_advance_lt skip g he)) hg)
    (Nat.le_refl _)

/-- A scan is in the comment from behind the outer opener on. -/
def Phase.Inside : Phase → Prop
  | .leading => False
  | .opening => False
  | .entering => True
  | .body _ => True

/-- Inside the comment a scan takes one code point after the other and skips none. -/
theorem run_inside (hp : p.Inside) : ∃ n,
    (∃ reason, run o p h = (.error reason, (Host.advance false)^[n] h)) ∨
      ∃ t, run o p h = (.ok t, report ((Host.advance false)^[n] h)) := by
  fun_induction run o p h with
  | case1 p h v g hs =>
    rcases step_stopped_cases hs with ⟨reason, -, rfl, rfl⟩ | ⟨final, -, -, rfl, rfl⟩
    · exact ⟨0, .inl ⟨reason, rfl⟩⟩
    · exact ⟨0, .inr ⟨_, rfl⟩⟩
  | case2 p h q g hs ih =>
    rcases step_going_cases hs with ⟨hr, rfl⟩ | ⟨skip, c, -, hr, rfl⟩
    · obtain ⟨b, rfl, -⟩ := Phase.hold_cases hr
      exact ih trivial
    · rcases Phase.consume_cases hr with ⟨rfl, -⟩ | ⟨rfl, -⟩ | ⟨rfl, -⟩ | ⟨b, -, -, rfl, rfl⟩
      · cases hp
      · cases hp
      · cases hp
      · obtain ⟨n, ended⟩ := ih trivial
        exact ⟨n + 1, ended⟩

end

end NestedComment.Scan
