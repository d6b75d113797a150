import NestedComment.Check
import NestedComment.Proofs.Cursor.Text

/-!
# The plain loop and the machine

The plain loop looks past each half of a delimiter at once, where the machine holds what follows for
its next state. At the head of the loop the machine is in the state without a first half, with the
same depth (`body_agrees`). So both come to the same end of a comment, and where there is none they
stop at the same place. `plain_agrees` says so for cursors.
-/

namespace NestedComment.Scan

universe u

/-- How the plain loop ends where a scan does: past the closer of which the scan reports the token,
or at the place at which the scan abstains. -/
inductive Agrees {σ : Type u} [Host σ] : Bool × σ → Verdict × σ → Prop where
  | found (t : Token) (g : σ) : Agrees (true, Host.advance false g) (.ok t, report g)
  | missed (reason : Abstention) (g : σ) : Agrees (false, g) (.error reason, g)

section

variable {σ : Type u} [BoundedHost σ] {o : Options} {h : σ}

/-- The plain loop refuses a depth exactly if the limit forbids one comment more. -/
lemma exceeds_iff {limit : Option UInt64} {depth : Nat} :
    Plain.exceeds limit (depth + 1) = true ↔ Body.Forbids limit depth := by
  cases limit with
  | none => simp [Plain.exceeds, Body.Forbids]
  | some l =>
    simp only [Plain.exceeds, Body.Forbids, Option.any_some, decide_eq_true_eq, Option.mem_def,
      Option.some.injEq, exists_eq_left']
    exact Nat.lt_succ_iff

/-- At the head of the plain loop the machine has no first half of a delimiter. -/
theorem body_agrees (depth deepest : Nat) (h : σ) :
    Agrees (Plain.body o.maxDepth depth h) (run o (.body ⟨.neither, depth, deepest⟩) h) := by
  fun_induction Plain.body o.maxDepth depth h generalizing deepest with
  | case1 depth h he g hstar hparen hdepth =>
    have hends : Body.Ends ⟨.closer, depth, deepest⟩ ')' := ⟨⟨rfl, rfl⟩, by simp only; omega⟩
    rw [run_of_neither .closer (Host.peek_of_not_eof he) (by rw [hstar]; rfl)]
    rw [run_of_stopped (step_of_ends hparen hends)]
    exact .found _ g
  | case2 depth h he g hstar hparen hdepth ih =>
    have hcloses : Body.Closes ⟨.closer, depth, deepest⟩ ')' := ⟨rfl, rfl⟩
    rw [run_of_neither .closer (Host.peek_of_not_eof he) (by rw [hstar]; rfl)]
    rw [run_of_going (step_of_closes hparen hcloses hdepth)]
    exact ih deepest
  | case3 depth h he g hstar hparen ih =>
    -- The machine still has the star when the loop is back at its head.
    rw [run_of_neither .closer (Host.peek_of_not_eof he) (by rw [hstar]; rfl), run_of_not_completed]
    · exact ih deepest
    · rintro c hc ⟨hhalf, -⟩
      cases hhalf
    · rintro c hc ⟨-, rfl⟩
      exact hparen hc
  | case4 depth h he g hstar hparen hnext hlimit =>
    obtain ⟨l, hl, hle⟩ := exceeds_iff.1 hlimit
    have hopens : Body.Opens ⟨.opener, depth, deepest⟩ '*' := ⟨rfl, rfl⟩
    rw [run_of_neither .opener (Host.peek_of_not_eof he) (by rw [hparen]; rfl)]
    rw [run_of_stopped (step_of_overflows hnext hopens hl hle)]
    exact .missed _ g
  | case5 depth h he g hstar hparen hnext hlimit ih =>
    have hopens : Body.Opens ⟨.opener, depth, deepest⟩ '*' := ⟨rfl, rfl⟩
    have hallowed : ¬Body.Forbids o.maxDepth depth := mt exceeds_iff.2 hlimit
    rw [run_of_neither .opener (Host.peek_of_not_eof he) (by rw [hparen]; rfl)]
    rw [run_of_going (step_of_opens hnext hopens hallowed)]
    exact ih (max deepest (depth + 1))
  | case6 depth h he g hstar hparen hnext ih =>
    rw [run_of_neither .opener (Host.peek_of_not_eof he) (by rw [hparen]; rfl), run_of_not_completed]
    · exact ih deepest
    · rintro c hc ⟨-, rfl⟩
      exact hnext hc
    · rintro c hc ⟨hhalf, -⟩
      cases hhalf
  | case7 depth h he g hstar hparen ih =>
    rw [run_of_neither .neither (Host.peek_of_not_eof he) (by simp [Body.halfOf, hstar, hparen])]
    exact ih deepest
  | case8 depth h he =>
    have hnone : Host.peek h = none := Host.peek_eq_none_iff.2 (by simpa using he)
    rw [run_of_stopped (step_of_eof hnone)]
    exact .missed _ h

/-- The plain loop skips the same blanks. -/
lemma reaches_skipBlanks (h : σ) :
    Reaches o .leading h .leading (Plain.skipBlanks o h) ∧
      ∀ c ∈ Host.peek (Plain.skipBlanks o h), ¬o.isWhitespace c := by
  fun_induction Plain.skipBlanks o h with
  | case1 h he hblank ih =>
    have skipped : step o .leading h = .going .leading (Host.advance true h) := by
      rw [step, Host.peek_of_not_eof he]
      simp [Phase.react, hblank, perform]
    exact ⟨.go skipped ih.1, ih.2⟩
  | case2 h he hblank =>
    refine ⟨.refl, ?_⟩
    intro c hc
    rw [Host.peek_of_not_eof he] at hc
    cases hc
    exact hblank
  | case3 h he =>
    refine ⟨.refl, ?_⟩
    intro c hc
    exact absurd (Host.eof_eq_false_of_peek hc) he

/-- A scan and the plain loop end alike. -/
theorem scan_agrees (o : Options) (h : σ) : Agrees (Plain.scan o h) (scan o h) := by
  obtain ⟨skipped, hblank⟩ := reaches_skipBlanks (o := o) h
  rw [scan, skipped.run_eq, Plain.scan]
  by_cases hparen : Host.peek (Plain.skipBlanks o h) = some '('
  · rw [run_of_going (step_leading_of_paren hparen), if_pos hparen]
    by_cases hstar : Host.peek (Host.advance false (Plain.skipBlanks o h)) = some '*'
    · rw [run_of_going (step_opening_of_star hstar), if_pos hstar]
      by_cases hlimit : Plain.exceeds o.maxDepth 1 = true
      · obtain ⟨l, hl, hle⟩ := exceeds_iff.1 hlimit
        rw [run_of_stopped (step_entering_of_forbids hl hle), if_pos hlimit]
        exact .missed _ _
      · rw [run_of_going (step_entering_of_not_forbids (mt exceeds_iff.2 hlimit)), if_neg hlimit]
        exact body_agrees 1 1 _
    · rw [run_of_stopped (step_opening_of_other hstar), if_neg hstar]
      exact .missed _ _
  · rw [run_of_stopped (step_leading_of_other hblank hparen), if_neg hparen]
    exact .missed _ _

end

/-- A scan finds a token exactly if the plain loop finds an end, which is then the marked end of the
token and the place of the cursor. However they end, they leave the cursor at one place, before one
code point and with one start of the token. -/
theorem plain_agrees (o : Options) (input : List UInt8) (offset : Nat) :
    let found := scan o (Cursor.atOffset input offset)
    let plain := Plain.scan o (Cursor.atOffset input offset)
    ((∃ t, found.1 = .ok t) ↔ ∃ stop, Check.plainEnd o input offset = some stop) ∧
      (∀ stop, Check.plainEnd o input offset = some stop →
        found.2.tokenEnd = some stop ∧ found.2.position = stop) ∧
      found.2.position = plain.2.position ∧
      Host.lookahead found.2 = Host.lookahead plain.2 ∧
      found.2.tokenStart = plain.2.tokenStart := by
  intro found plain
  have agrees : Agrees plain found := scan_agrees o (Cursor.atOffset input offset)
  have hend : Check.plainEnd o input offset = if plain.1 then some plain.2.position else none := rfl
  rw [hend]
  clear_value found plain
  cases agrees with
  | found t g =>
    -- Reporting a token changes its end and its symbol, and neither place nor start.
    rw [Cursor.report_eq]
    refine ⟨⟨fun _ => ⟨_, rfl⟩, fun _ => ⟨t, rfl⟩⟩, ?_, rfl, rfl, rfl⟩
    rintro stop hstop
    cases hstop
    exact ⟨rfl, rfl⟩
  | missed reason g =>
    refine ⟨⟨?_, ?_⟩, ?_, rfl, rfl, rfl⟩
    · rintro ⟨t, ht⟩
      cases ht
    · rintro ⟨stop, hstop⟩
      cases hstop
    · intro stop hstop
      cases hstop

end NestedComment.Scan
