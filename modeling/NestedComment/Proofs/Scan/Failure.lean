import NestedComment.Proofs.Scan.Round

/-!
# Where a scan finds no token

`Phase.Fails` lists the ways in which a scan abstains: in which phase, before which code point, and
with which reason. Nothing else makes a scan abstain, whatever the host is (`fails_of_returns`). So
an open comment is reported only at the end of the input (`eof_of_unterminated`), and a limit only
if there is one (`mem_of_depthLimit`).
-/

namespace NestedComment.Scan

universe u

/-- The reasons to abstain in a phase, before a code point or the end of the input. -/
inductive Phase.Fails (o : Options) : Phase → Option Char → Abstention → Prop where
  | notAComment {seen : Option Char} : seen ≠ some '(' → Fails o .leading seen (.notAComment seen)
  | partialOpener {seen : Option Char} :
    seen ≠ some '*' → Fails o .opening seen (.partialOpener seen)
  | unterminated {b : Body} : Fails o (.body b) none (.unterminated b.depth)
  /-- The limit forbids even the outermost comment. -/
  | outermost {l : UInt64} {seen : Option Char} :
    l ∈ o.maxDepth → l.toNat = 0 → Fails o .entering seen (.depthLimit l)
  | deeper {b : Body} {l : UInt64} :
    l ∈ o.maxDepth → b.Opens '*' → l.toNat ≤ b.depth → Fails o (.body b) (some '*') (.depthLimit l)

section

variable {limit : Option UInt64} {b : Body} {c : Char} {reason : Abstention}

/-- A machine abstains exactly if the one inside it does. -/
lemma Reaction.map_eq_abstain {α β : Type} {f : α → β} {r : Reaction α} :
    r.map f = .abstain reason ↔ r = .abstain reason := by
  cases r <;> simp [Reaction.map]

/-- Opening a comment is refused only by the limit. -/
lemma Body.enter_of_abstain (h : b.enter limit = .abstain reason) :
    ∃ l ∈ limit, l.toNat ≤ b.depth ∧ reason = .depthLimit l := by
  by_cases hlimit : Forbids limit b.depth
  · obtain ⟨l, hl, hle⟩ := hlimit
    rw [enter_of_forbids hl hle] at h
    cases h
    exact ⟨l, hl, hle, rfl⟩
  · rw [enter_of_not_forbids hlimit] at h
    cases h

/-- Closing a comment is never refused. -/
lemma Body.leave_ne_abstain : b.leave ≠ .abstain reason := by
  intro h
  rw [leave] at h
  split at h
  · cases h
  · cases h

/-- Before a code point inside the comment a scan abstains only if it completes an opener. -/
lemma Body.see_of_abstain (h : b.see limit c = .abstain reason) :
    b.Opens c ∧ ∃ l ∈ limit, l.toNat ≤ b.depth ∧ reason = .depthLimit l := by
  rw [see] at h
  split at h
  · cases h
  · split at h
    · exact absurd h leave_ne_abstain
    · cases h
  · next hhalf =>
    split at h
    · next hc => exact ⟨⟨hhalf, hc⟩, enter_of_abstain h⟩
    · cases h

end

/-- Each reason to abstain belongs to its phase and to what is seen there. -/
lemma Phase.fails_of_abstain {o : Options} {p : Phase} {seen : Option Char} {reason : Abstention}
    (h : p.react o seen = .abstain reason) : p.Fails o seen reason := by
  cases p with
  | leading =>
    cases seen with
    | none =>
      cases h
      exact .notAComment (Option.some_ne_none _).symm
    | some c =>
      rw [react] at h
      split at h
      · cases h
      · split at h
        · cases h
        · next hc =>
          cases h
          exact .notAComment fun e => hc (Option.some.inj e)
  | opening =>
    cases seen with
    | none =>
      cases h
      exact .partialOpener (Option.some_ne_none _).symm
    | some c =>
      rw [react] at h
      split at h
      · cases h
      · next hc =>
        cases h
        exact .partialOpener fun e => hc (Option.some.inj e)
  | entering =>
    obtain ⟨l, hl, hle, rfl⟩ := Body.enter_of_abstain (Reaction.map_eq_abstain.1 h)
    exact .outermost hl (Nat.le_zero.1 hle)
  | body b =>
    cases seen with
    | none =>
      cases h
      exact .unterminated
    | some c =>
      obtain ⟨hopens, l, hl, hle, rfl⟩ := Body.see_of_abstain (Reaction.map_eq_abstain.1 h)
      obtain rfl := hopens.2
      exact .deeper hl hopens hle

section

variable {σ : Type u} [Host σ] {o : Options} {p q : Phase} {h g : σ} {v : Verdict}
  {reason : Abstention}

/-- A scan that abstains leaves the host where its last phase failed. -/
theorem fails_of_returns (returns : Returns o p h (.error reason) g) :
    ∃ q, Reaches o p h q g ∧ q.Fails o (Host.peek g) reason := by
  obtain ⟨q, k, reached, hs⟩ := stopped_of_returns returns
  rcases step_stopped_cases hs with ⟨_, hr, hv, rfl⟩ | ⟨_, -, -, hv, -⟩
  · cases hv
    exact ⟨q, reached, Phase.fails_of_abstain hr⟩
  · cases hv

/-- An open comment is reported only at the end of the input. -/
lemma eof_of_unterminated {depth : Nat} (returns : Returns o p h (.error (.unterminated depth)) g) :
    Host.eof g = true := by
  obtain ⟨q, -, fails⟩ := fails_of_returns returns
  generalize hpeek : Host.peek g = seen at fails
  cases fails
  exact Host.peek_eq_none_iff.1 hpeek

/-- The limit that is reported is the limit there is. -/
lemma mem_of_depthLimit {l : UInt64} (returns : Returns o p h (.error (.depthLimit l)) g) :
    l ∈ o.maxDepth := by
  obtain ⟨q, -, fails⟩ := fails_of_returns returns
  generalize Host.peek g = seen at fails
  cases fails with
  | outermost hl _ => exact hl
  | deeper hl _ _ => exact hl

end

end NestedComment.Scan
