import NestedComment.Scan.Reaction

/-!
# Scans on bounded hosts

On a host where moving comes to an end, so does a scan: a step that consumes nothing is always
followed by one that consumes or stops. `returns_iff_run` says that the scan computed here is the
one that the steps describe, and `run_preserves` carries a property that every call keeps from the
start of a scan to its end.
-/

namespace NestedComment.Scan

universe u

/-- What a scan on a bounded host uses up with every step. -/
def remainingWork {σ : Type u} [BoundedHost σ] (p : Phase) (h : σ) : Nat :=
  2 * BoundedHost.size h + p.pause

/-- Every step that goes on uses some of the work up. -/
theorem remainingWork_lt {σ : Type u} [BoundedHost σ] {o : Options} {p q : Phase} {h g : σ}
    (hs : step o p h = .going q g) : remainingWork q g < remainingWork p h := by
  unfold remainingWork
  rcases step_going_cases hs with ⟨hr, rfl⟩ | ⟨skip, c, hc, -, rfl⟩
  · have hlt := Phase.pause_lt_of_react hr
    omega
  · have hlt := BoundedHost.size_advance_lt skip h (Host.eof_eq_false_of_peek hc)
    have hq := Phase.pause_le_one q
    omega

variable {σ : Type u} [BoundedHost σ]

/-- Goes on with a scan until it comes to a verdict. -/
def run (o : Options) (p : Phase) (h : σ) : Verdict × σ :=
  match _hs : step o p h with
  | .stopped v g => (v, g)
  | .going q g => run o q g
termination_by remainingWork p h
decreasing_by exact remainingWork_lt _hs

/-- Scans for a comment at the cursor. -/
def scan (o : Options) (h : σ) : Verdict × σ :=
  run o .leading h

/-- A scan ends with the step that stops it. -/
theorem run_of_stopped {o : Options} {p : Phase} {h g : σ} {v : Verdict}
    (hs : step o p h = .stopped v g) : run o p h = (v, g) := by
  rw [run]; split <;> simp_all

/-- A scan goes on behind a step that does. -/
theorem run_of_going {o : Options} {p q : Phase} {h g : σ}
    (hs : step o p h = .going q g) : run o p h = run o q g := by
  rw [run]; split <;> simp_all

/-- A scan on a bounded host comes to exactly the verdict and the host that are computed. -/
theorem returns_iff_run {o : Options} {p : Phase} {h : σ} {v : Verdict} {g : σ} :
    Returns o p h v g ↔ run o p h = (v, g) := by
  constructor
  · intro hr
    induction hr with
    | stop hs => exact run_of_stopped hs
    | go hs _ ih => rw [run_of_going hs, ih]
  · intro he
    fun_induction run o p h with
    | case1 p h v' g' hs => cases he; exact .stop hs
    | case2 p h q g' hs ih => exact .go hs (ih he)

/-- A property that moving keeps holds until the end of a scan if it held at its start. A scan that
finds a token reports it from a place where the property holds. -/
theorem run_preserves {P : σ → Prop} {o : Options}
    (hadvance : ∀ skip h, Host.eof h = false → P h → P (Host.advance skip h))
    (p : Phase) (h : σ) (h0 : P h) :
    (∃ reason, (run o p h).1 = .error reason ∧ P (run o p h).2) ∨
      ∃ t g, run o p h = (.ok t, report g) ∧ Host.peek g = some ')' ∧ P g := by
  fun_induction run o p h with
  | case1 p h v g hs =>
    rcases step_stopped_cases hs with ⟨reason, -, rfl, rfl⟩ | ⟨final, hc, -, rfl, rfl⟩
    · exact .inl ⟨reason, rfl, h0⟩
    · exact .inr ⟨_, h, rfl, hc, h0⟩
  | case2 p h q g hs ih =>
    apply ih
    rcases step_going_cases hs with ⟨-, rfl⟩ | ⟨skip, c, hc, -, rfl⟩
    · exact h0
    · exact hadvance skip h (Host.eof_eq_false_of_peek hc) h0

end NestedComment.Scan
