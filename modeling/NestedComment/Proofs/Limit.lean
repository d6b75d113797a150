import NestedComment.Proofs.Cursor.Scan
import NestedComment.Proofs.Scan.Depth
import NestedComment.Proofs.Scan.Failure

/-!
# Scans with a limit and without

A limit makes a difference to a step only where it forbids one more comment (`react_capped`). So the
scan with a limit takes the steps of the scan without one, until that scan gets deeper than the
limit allows, and stops there (`run_capped`). `Spared` says of the scan without a limit that a limit
changes nothing, from what it comes to; `scan_capped` compares the two scans of a cursor, and those
with two limits.
-/

namespace NestedComment

universe u

namespace Options

/-- The same options without a limit on nesting. -/
def free (o : Options) : Options := { o with maxDepth := none }

/-- The same options with a limit on nesting. -/
def capped (l : UInt64) (o : Options) : Options := { o with maxDepth := some l }

end Options

open Scan

namespace Scan

/-- A limit changes nothing of a scan: it finds no opener, it finds a token that is no deeper than
the limit, or it comes to the end of the input without ever having been deeper. -/
inductive Spared {σ : Type u} [BoundedHost σ] (o : Options) (l : UInt64) (h : σ) : Prop where
  | notAComment {found : Option Char} :
    (scan o.free h).1 = .error (.notAComment found) → Spared o l h
  | partialOpener {found : Option Char} :
    (scan o.free h).1 = .error (.partialOpener found) → Spared o l h
  | token {t : Token} : (scan o.free h).1 = .ok t → t.deepest ≤ l.toNat → Spared o l h
  | unterminated {depth : Nat} :
    (scan o.free h).1 = .error (.unterminated depth) →
    (∀ b g, Reaches o.free .leading h (.body b) g → b.depth ≤ l.toNat) → Spared o l h

section

variable {o : Options} {l : UInt64}

/-- Two machines differ where one of them opens one more comment and the other one refuses it. -/
def Differ (l : UInt64) (capped free : Reaction Body) : Prop :=
  ∃ b : Body, l.toNat ≤ b.depth ∧ capped = .abstain (.depthLimit l) ∧ free = .hold b.deeper

/-- Opening a comment is the same with a limit and without, or the limit refuses it. -/
lemma Body.enter_capped (b : Body) (l : UInt64) :
    b.enter (some l) = b.enter none ∨ Differ l (b.enter (some l)) (b.enter none) := by
  by_cases hle : l.toNat ≤ b.depth
  · exact .inr ⟨b, hle, enter_of_forbids rfl hle, rfl⟩
  · refine .inl (enter_of_not_forbids ?_)
    rintro ⟨_, ⟨⟩, hle'⟩
    exact hle hle'

/-- Seeing a code point is the same with a limit and without, or the limit refuses a comment. -/
lemma Body.see_capped (b : Body) (l : UInt64) (c : Char) :
    b.see (some l) c = b.see none c ∨ Differ l (b.see (some l) c) (b.see none c) := by
  obtain ⟨half, depth, deepest⟩ := b
  cases half with
  | neither => exact .inl rfl
  | closer => exact .inl rfl
  | opener =>
    by_cases hc : c = '*'
    · simp only [see, if_pos hc]
      exact enter_capped _ l
    · simp only [see, if_neg hc, true_or]

/-- A limit makes a difference only where one more comment is opened. -/
lemma react_capped (p : Phase) (seen : Option Char) :
    p.react (o.capped l) seen = p.react o.free seen ∨ ∃ capped free, Differ l capped free ∧
      p.react (o.capped l) seen = capped.map .body ∧ p.react o.free seen = free.map .body := by
  cases p with
  | leading => cases seen <;> exact .inl rfl
  | opening => cases seen <;> exact .inl rfl
  | entering =>
    rcases Body.outside.enter_capped l with he | hdiffer
    · exact .inl (congrArg (Reaction.map Phase.body) he)
    · exact .inr ⟨_, _, hdiffer, rfl, rfl⟩
  | body b =>
    cases seen with
    | none => exact .inl rfl
    | some c =>
      rcases b.see_capped l c with he | hdiffer
      · exact .inl (congrArg (Reaction.map Phase.body) he)
      · exact .inr ⟨_, _, hdiffer, rfl, rfl⟩

section

variable {σ : Type u} [BoundedHost σ] {h g : σ} {p : Phase} {b : Body} {t : Token}

/-- A step is the same with a limit and without, or the limit refuses a comment. -/
lemma step_capped (p : Phase) (h : σ) :
    step (o.capped l) p h = step o.free p h ∨ ∃ b : Body, l.toNat ≤ b.depth ∧
      step (o.capped l) p h = .stopped (.error (.depthLimit l)) h ∧
      step o.free p h = .going (.body b.deeper) h := by
  rcases react_capped (o := o) (l := l) p (Host.peek h) with
    he | ⟨_, _, ⟨b, hle, rfl, rfl⟩, hcapped, hfree⟩
  · exact .inl (congrArg (perform h) he)
  · exact .inr ⟨b, hle, congrArg (perform h) hcapped, congrArg (perform h) hfree⟩

/-- Either the scan without a limit never gets deeper than the limit allows, and both scans are one,
or the scan with the limit stops where the other one gets deeper. -/
theorem run_capped (p : Phase) (h : σ) (bounded : p.Bounded (some l)) :
    (run (o.capped l) p h = run o.free p h ∧
      ∀ b g, Reaches o.free p h (.body b) g → b.depth ≤ l.toNat) ∨
    ∃ b g, run (o.capped l) p h = (.error (.depthLimit l), g) ∧
      Reaches o.free p h (.body b) g ∧ l.toNat < b.depth := by
  have here (b : Body) (hp : p = .body b) : b.depth ≤ l.toNat :=
    (bounded b hp).depth_le.trans ((bounded b hp).deepest_le l rfl)
  fun_induction run o.free p h with
  | case1 p h v g hs =>
    rcases step_capped (o := o) (l := l) p h with he | ⟨b, -, -, hgoing⟩
    · refine .inl ⟨run_of_stopped (he.trans hs), ?_⟩
      intro b g' reached
      cases reached with
      | refl => exact here b rfl
      | go hs' _ => cases hs.symm.trans hs'
    · cases hs.symm.trans hgoing
  | case2 p h q g hs ih =>
    rcases step_capped (o := o) (l := l) p h with he | ⟨b, hle, hstop, hgoing⟩
    · have hcapped : step (o.capped l) p h = .going q g := he.trans hs
      have bounded' : q.Bounded (some l) := bounded_of_going hcapped bounded
      rcases ih bounded' fun b hq =>
        (bounded' b hq).depth_le.trans ((bounded' b hq).deepest_le l rfl) with
        ⟨hrun, hnever⟩ | ⟨b, k, hrun, reached, hlt⟩
      · refine .inl ⟨(run_of_going hcapped).trans hrun, ?_⟩
        intro b g' reached
        cases reached with
        | refl => exact here b rfl
        | go hs' rest =>
          cases hs.symm.trans hs'
          exact hnever b g' rest
      · exact .inr ⟨b, k, (run_of_going hcapped).trans hrun, .go hs reached, hlt⟩
    · exact .inr ⟨b.deeper, h, run_of_stopped hstop, .single hgoing, Nat.lt_succ_of_le hle⟩

/-- A scan that gets deeper than a limit is not spared. -/
lemma not_spared (reached : Reaches o.free .leading h (.body b) g) (hlt : l.toNat < b.depth) :
    ¬Spared o l h := by
  -- From inside the comment the opener is no longer missed.
  have found {v : Verdict} (hv : (scan o.free h).1 = v) :
      Returns o.free (.body b) g v (scan o.free h).2 := by
    rw [returns_iff_run, ← reached.run_eq, ← hv]
    rfl
  have fails {reason : Abstention} (hv : (scan o.free h).1 = .error reason) :
      ∃ b' seen, Phase.Fails o.free (.body b') seen reason := by
    obtain ⟨q, last, failed⟩ := fails_of_returns (found hv)
    obtain ⟨b', rfl, -⟩ := last.deepest_le
    exact ⟨b', _, failed⟩
  rintro (hv | hv | ⟨hv, hle⟩ | ⟨-, hnever⟩)
  · obtain ⟨_, _, ⟨⟩⟩ := fails hv
  · obtain ⟨_, _, ⟨⟩⟩ := fails hv
  · obtain ⟨b', k, last, rfl, -⟩ := body_of_returns (found hv)
    obtain ⟨_, ⟨⟩, hdeepest⟩ := last.deepest_le
    have hdepth := (reached.bounded Phase.bounded_leading b rfl).depth_le
    exact absurd hle (not_le.2 (hlt.trans_le (hdepth.trans hdeepest)))
  · exact absurd (hnever b g reached) (not_le.2 hlt)

/-- A scan that never gets deeper than a limit is spared. -/
lemma spared_of_never (hscan : scan (o.capped l) h = scan o.free h)
    (hnever : ∀ b g, Reaches o.free .leading h (.body b) g → b.depth ≤ l.toNat) :
    Spared o l h := by
  cases hv : (scan o.free h).1 with
  | ok t =>
    rw [← hscan] at hv
    have returns : Returns (o.capped l) .leading h (.ok t) (scan (o.capped l) h).2 :=
      returns_iff_run.2 (Prod.ext hv rfl)
    rw [hscan] at hv
    exact .token hv ((deepest_of_returns returns Phase.bounded_leading).2 l rfl)
  | error reason =>
    cases reason with
    | notAComment found => exact .notAComment hv
    | partialOpener found => exact .partialOpener hv
    | unterminated depth => exact .unterminated hv hnever
    | depthLimit m =>
      have returns : Returns o.free .leading h (.error (.depthLimit m)) (scan o.free h).2 :=
        returns_iff_run.2 (Prod.ext hv rfl)
      cases mem_of_depthLimit returns

/-- With the limit a scan that is spared is the scan without one. Any other stops with the limit at
a place to which the scan without one gets as well. -/
theorem scan_capped_cases (o : Options) (l : UInt64) (h : σ) :
    Spared o l h ∧ scan (o.capped l) h = scan o.free h ∨
      ¬Spared o l h ∧ ∃ p g, scan (o.capped l) h = (.error (.depthLimit l), g) ∧
        Reaches o.free .leading h p g := by
  rcases run_capped (o := o) (l := l) .leading h Phase.bounded_leading with
    ⟨hscan, hnever⟩ | ⟨b, g, hscan, reached, hlt⟩
  · exact .inl ⟨spared_of_never hscan hnever, hscan⟩
  · exact .inr ⟨not_spared reached hlt, .body b, g, hscan, reached⟩

/-- A token that is found with a limit is found without. -/
lemma scan_free_of_token (hv : (scan (o.capped l) h).1 = .ok t) :
    Spared o l h ∧ scan (o.capped l) h = scan o.free h := by
  rcases scan_capped_cases o l h with hspared | ⟨-, p, g, hscan, -⟩
  · exact hspared
  · rw [hscan] at hv
    cases hv

/-- A token that is found with a limit is no deeper, so it is found with a greater limit. -/
lemma spared_of_le {m : UInt64} (hle : l ≤ m) (hv : (scan (o.capped l) h).1 = .ok t) :
    Spared o m h := by
  have hscan := (scan_free_of_token hv).2
  have returns : Returns (o.capped l) .leading h (.ok t) (scan (o.capped l) h).2 :=
    returns_iff_run.2 (Prod.ext hv rfl)
  rw [hscan] at hv
  have hdeepest := (deepest_of_returns returns Phase.bounded_leading).2 l rfl
  exact .token hv (hdeepest.trans (UInt64.le_iff_toNat_le.1 hle))

end

end

end Scan

/-- A limit on nesting changes nothing but where a scan is cut off. A scan that is spared comes to
the same and leaves the same cursor with the limit as without. Any other stops with the limit, not
behind the place where it would stop without. So a token that is found with a limit is found alike
with any greater limit, and without one. -/
theorem scan_capped (o : Options) (l : UInt64) (input : List UInt8) (offset : Nat) :
    let c := Cursor.atOffset input offset
    let limited := Scan.scan (o.capped l) c
    let unlimited := Scan.scan o.free c
    (Spared o l c → limited = unlimited) ∧
    (¬Spared o l c → limited.1 = .error (.depthLimit l) ∧
      limited.2.position ≤ unlimited.2.position) ∧
    (∀ t, limited.1 = .ok t → unlimited = limited ∧
      ∀ m, l ≤ m → Scan.scan (o.capped m) c = limited) := by
  intro c limited unlimited
  refine ⟨?_, ?_, ?_⟩
  · intro spared
    rcases scan_capped_cases o l c with ⟨-, hscan⟩ | ⟨hnot, -⟩
    · exact hscan
    · exact absurd spared hnot
  · intro hnot
    rcases scan_capped_cases o l c with ⟨spared, -⟩ | ⟨-, p, g, hscan, reached⟩
    · exact absurd spared hnot
    · have hrest : unlimited = run o.free p g := reached.run_eq
      rw [show limited = _ from hscan, hrest]
      exact ⟨rfl, Cursor.position_le_run o.free p g⟩
  · intro t hv
    have hscan : limited = unlimited := (scan_free_of_token hv).2
    refine ⟨hscan.symm, ?_⟩
    intro m hle
    rcases scan_capped_cases o m c with ⟨-, hscan'⟩ | ⟨hnot, -⟩
    · exact hscan'.trans hscan.symm
    · exact absurd (spared_of_le hle hv) hnot

end NestedComment
