import NestedComment.Foreign.Tape
import NestedComment.Proofs.Scan.Calls

/-!
# Scans come to an end

Inside a comment some steps of a scan take no code point. Still a scan ends on every host on which
moving uses something up. Such a measure makes the host a bounded one (`Host.bounded`), and a step
that leaves the host alone is followed by one that takes a code point (`takes_of_holds`). Every code
point that is moved past costs a unit of the measure (`moves_of_returns`). `returns_of_measure` puts
this together.
-/

namespace NestedComment

universe u

/-- A host with a measure that moving uses up is bounded by it. -/
@[reducible] def Host.bounded {σ : Type u} [Host σ] (m : σ → Nat)
    (hadvance : ∀ (skip : Bool) (h : σ), eof h = false → m (advance skip h) < m h) :
    BoundedHost σ where
  size := m
  size_advance_lt := hadvance

/-- Whether an action moves the host past a code point. -/
def Action.isMove : Action → Bool
  | .advance _ => true
  | .setSymbol _ => false
  | .markEnd => false

namespace Scan

variable {σ : Type u} [Host σ]

/-- The number of calls that move the host. -/
def moves (calls : List (Call σ)) : Nat :=
  calls.countP fun a => a.action.isMove

section

variable {o : Options} {m : σ → Nat} {p q : Phase} {b : Body} {v : Verdict} {r s : Recorded σ}

/-- A step that goes on costs as much of the measure as it moves. -/
lemma moves_of_going
    (hadvance : ∀ skip (h : σ), Host.eof h = false → m (Host.advance skip h) < m h)
    (hs : step o p r = .going q s) :
    moves s.calls.toList + m s.host ≤ moves r.calls.toList + m r.host := by
  rcases step_going_cases hs with ⟨-, rfl⟩ | ⟨skip, c, hc, -, rfl⟩
  · exact Nat.le_refl _
  · have hlt : m (Host.advance skip r.host) < m r.host :=
      hadvance skip r.host (Host.eof_eq_false_of_peek hc)
    have hcount : moves (Host.advance skip r).calls.toList = moves r.calls.toList + 1 := by
      rw [calls_advance, moves, List.countP_append]
      rfl
    have hhost : (Host.advance skip r).host = Host.advance skip r.host := rfl
    rw [hcount, hhost]
    omega

/-- The last step moves at most once, and only where the input has not ended. -/
lemma moves_of_stopped
    (hadvance : ∀ skip (h : σ), Host.eof h = false → m (Host.advance skip h) < m h)
    (hs : step o p r = .stopped v s) :
    moves s.calls.toList ≤ moves r.calls.toList + m r.host := by
  rcases step_stopped_cases hs with ⟨reason, -, -, rfl⟩ | ⟨final, hc, -, -, rfl⟩
  · exact Nat.le_add_right _ _
  · have hlt : m (Host.advance false r.host) < m r.host :=
      hadvance false r.host (Host.eof_eq_false_of_peek hc)
    have hcount : moves (report r).calls.toList = moves r.calls.toList + 1 := by
      rw [calls_report, moves, List.countP_append]
      rfl
    rw [hcount]
    omega

/-- A scan moves no more often than the measure allows. -/
theorem moves_of_returns
    (hadvance : ∀ skip (h : σ), Host.eof h = false → m (Host.advance skip h) < m h)
    (returns : Returns o p r v s) : moves s.calls.toList ≤ moves r.calls.toList + m r.host := by
  induction returns with
  | stop hs => exact moves_of_stopped hadvance hs
  | go hs _ ih => exact Nat.le_trans ih (moves_of_going hadvance hs)

/-- A step inside the comment that calls nothing holds its code point, which the next step takes. -/
lemma takes_of_holds (hs : step o (.body b) r = .going q s) (hsame : s.calls = r.calls) :
    ∃ q', step o q s = .going q' (Host.advance false s) := by
  rcases step_going_cases hs with ⟨hr, rfl⟩ | ⟨skip, c, -, -, rfl⟩
  · obtain ⟨b', rfl, hhalf, -⟩ := Phase.hold_cases hr
    cases hpeek : Host.peek s with
    | none =>
      rw [hpeek] at hr
      cases hr
    | some c =>
      rw [step, hpeek]
      simp only [Phase.react, Body.react, Body.see, hhalf, Reaction.map, perform]
      exact ⟨_, rfl⟩
  · have hlength := congrArg List.length (congrArg Array.toList hsame)
    rw [calls_advance, List.length_append, List.length_singleton] at hlength
    omega

end

/-- On every host with a measure that moving uses up where the input has not ended, and that naming
a symbol leaves alone, a scan comes to a verdict, whatever its options and wherever it starts. It
has moved the host no more often than the measure says, and no two steps in a row inside the comment
call nothing: what the first holds the second takes. -/
theorem returns_of_measure {m : σ → Nat}
    (hadvance : ∀ skip (h : σ), Host.eof h = false → m (Host.advance skip h) < m h)
    (hname : ∀ t (h : σ), m (Host.setSymbol t h) = m h ∧
      Host.eof (Host.setSymbol t h) = Host.eof h ∧
      Host.lookahead (Host.setSymbol t h) = Host.lookahead h) (o : Options) (h : σ) :
    (∃ v g, Returns o .leading h v g ∧ ∃ r : Recorded σ,
      Returns o .leading (Recorded.start h) v r ∧ r.host = g ∧ moves r.calls.toList ≤ m h) ∧
    ∀ (b : Body) (q : Phase) (r s : Recorded σ), step o (.body b) r = .going q s →
      s.calls = r.calls → ∃ q', step o q s = .going q' (Host.advance false s) := by
  have hpeek : ∀ t (h : σ), Host.peek (Host.setSymbol t h) = Host.peek h := by
    intro t h
    obtain ⟨-, heof, hlookahead⟩ := hname t h
    rw [Host.peek, heof, hlookahead, ← Host.peek]
  refine ⟨?_, fun b q r s => takes_of_holds⟩
  let _ := Host.bounded m hadvance
  have returns : Returns o .leading h (scan o h).1 (scan o h).2 := returns_iff_run.2 rfl
  obtain ⟨r, returned, hhost⟩ :=
    (simulation_recorded hpeek).returns (g := Recorded.start h) rfl returns
  refine ⟨_, _, returns, r, returned, hhost, ?_⟩
  have hmoves := moves_of_returns hadvance returned
  simpa [Recorded.start, moves] using hmoves

/-- A tape says that its input ends before the last parenthesis of a comment. Its measure is the
number of words that it holds. -/
theorem returns_of_measure_of_stop :
    let words (h : Foreign Tape) : Nat := h.raw.rest.length
    let h : Foreign Tape := ⟨.start [0x28, 0x2A, 0x2A, 0x29] 0 [3] Tape.noResult⟩
    (∀ skip g, Host.eof g = false → words (Host.advance skip g) < words g) ∧
      (∀ t g, words (Host.setSymbol t g) = words g ∧ Host.eof (Host.setSymbol t g) = Host.eof g ∧
        Host.lookahead (Host.setSymbol t g) = Host.lookahead g) ∧
      ∃ r : Recorded (Foreign Tape), Returns {} .leading (Recorded.start h)
        (.error (.unterminated 1)) r ∧ moves r.calls.toList ≤ 4 := by
  intro words h
  have hadvance : ∀ skip g, Host.eof g = false → words (Host.advance skip g) < words g :=
    fun skip g => BoundedHost.size_advance_lt skip g
  have hname : ∀ t g, words (Host.setSymbol t g) = words g ∧
      Host.eof (Host.setSymbol t g) = Host.eof g ∧
      Host.lookahead (Host.setSymbol t g) = Host.lookahead g := fun _ _ => ⟨rfl, rfl, rfl⟩
  obtain ⟨⟨v, g, returns, r, returned, -, hmoves⟩, -⟩ := returns_of_measure hadvance hname {} h
  have hverdict : (scan {} h).1 = .error (.unterminated 1) := by decide +kernel
  have hv : v = .error (.unterminated 1) := by
    rw [← hverdict, scan, returns_iff_run.1 returns]
  rw [hv] at returned
  exact ⟨hadvance, hname, r, returned, hmoves⟩

end Scan

end NestedComment
