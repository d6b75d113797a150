import NestedComment.Proofs.Scan.Reach

/-!
# The body of a comment, one code point at a time

The machine of the body may hold a code point once before it consumes it. Both steps together depend
only on the state and the code point: `Body.after` is the state behind it, unless the code point
closes the outermost comment (`Body.Ends`) or opens one comment too many (`Body.Overflows`). Behind
a code point the machine remembers of it exactly what `Body.halfOf` says.
-/

namespace NestedComment.Scan

universe u

namespace Body

/-- The state right after the outer opener. -/
def inside : Body := outside.deeper

/-- A code point completes an opener. -/
def Opens (b : Body) (c : Char) : Prop := b.half = .opener ∧ c = '*'

/-- A code point completes a closer. -/
def Closes (b : Body) (c : Char) : Prop := b.half = .closer ∧ c = ')'

/-- A code point completes the closer of the outermost comment. -/
def Ends (b : Body) (c : Char) : Prop := b.Closes c ∧ b.depth ≤ 1

/-- A limit forbids one more comment inside `depth` others. -/
def Forbids (limit : Option UInt64) (depth : Nat) : Prop := ∃ l ∈ limit, l.toNat ≤ depth

/-- A code point completes an opener that a limit forbids. -/
def Overflows (limit : Option UInt64) (b : Body) (c : Char) : Prop :=
  b.Opens c ∧ Forbids limit b.depth

instance (b : Body) (c : Char) : Decidable (b.Opens c) :=
  inferInstanceAs (Decidable (_ ∧ _))

instance (b : Body) (c : Char) : Decidable (b.Closes c) :=
  inferInstanceAs (Decidable (_ ∧ _))

/-- The state behind a code point that neither ends the comment nor overflows. -/
def after (b : Body) (c : Char) : Body :=
  if b.Opens c then { b.deeper with half := halfOf c }
  else if b.Closes c then { b.shallower with half := halfOf c }
  else { b with half := halfOf c }

/-- What is kept of a code point is the half of a delimiter that it may be. -/
@[simp] lemma half_after (b : Body) (c : Char) : (b.after c).half = halfOf c := by
  rw [after]
  split
  · rfl
  · split
    · rfl
    · rfl

/-- A code point that completes an opener opens one comment more, and its star is kept. -/
lemma after_of_opens {b : Body} {c : Char} (h : b.Opens c) :
    b.after c = ⟨.closer, b.depth + 1, max b.deepest (b.depth + 1)⟩ := by
  obtain ⟨half, rfl⟩ := h
  rw [after, if_pos ⟨half, rfl⟩]
  rfl

/-- A code point that completes a closer closes a comment. -/
lemma after_of_closes {b : Body} {c : Char} (h : b.Closes c) :
    b.after c = ⟨.neither, b.depth - 1, b.deepest⟩ := by
  obtain ⟨half, rfl⟩ := h
  rw [after, if_neg (by simp [Opens, half]), if_pos ⟨half, rfl⟩]
  rfl

/-- A code point that completes no delimiter changes no depth. -/
lemma after_of_not {b : Body} {c : Char} (ho : ¬b.Opens c) (hc : ¬b.Closes c) :
    b.after c = { b with half := halfOf c } := by
  rw [after, if_neg ho, if_neg hc]

/-- A comment that the limit forbids is not opened. -/
lemma enter_of_forbids {limit : Option UInt64} {l : UInt64} {b : Body} (hl : l ∈ limit)
    (h : l.toNat ≤ b.depth) : b.enter limit = .abstain (.depthLimit l) := by
  cases hl
  simp [enter, h]

/-- A comment that the limit does not forbid is opened. -/
lemma enter_of_not_forbids {limit : Option UInt64} {b : Body} (h : ¬Forbids limit b.depth) :
    b.enter limit = .hold b.deeper := by
  cases limit with
  | none => rfl
  | some l => exact if_neg fun hl => h ⟨l, rfl, hl⟩

end Body

section

variable {σ : Type u} [Host σ] {o : Options} {b : Body} {h : σ} {c : Char}

/-- A step inside the comment does what the machine does with the code point that is seen. -/
lemma step_body_of_peek (hc : Host.peek h = some c) :
    step o (.body b) h = perform h ((b.see o.maxDepth c).map .body) := by
  rw [step, hc]
  rfl

/-- Behind a first half that is not completed the scan goes on as if there were none. -/
lemma reaches_of_not_completed (hc : Host.peek h = some c) (hopens : ¬b.Opens c)
    (hcloses : ¬b.Closes c) : Reaches o (.body b) h (.body { b with half := .neither }) h := by
  obtain ⟨half, depth, deepest⟩ := b
  cases half with
  | neither => exact .refl
  | closer =>
    apply Reaches.single
    rw [step_body_of_peek hc]
    have hne : c ≠ ')' := fun e => hcloses ⟨rfl, e⟩
    simp [Body.see, hne, Reaction.map, perform]
  | opener =>
    apply Reaches.single
    rw [step_body_of_peek hc]
    have hne : c ≠ '*' := fun e => hopens ⟨rfl, e⟩
    simp [Body.see, hne, Reaction.map, perform]

/-- Where no half of a delimiter is kept, a step takes the code point that is seen. -/
lemma step_of_neither (hc : Host.peek h = some c) (hb : b.half = .neither) :
    step o (.body b) h = .going (.body { b with half := Body.halfOf c }) (Host.advance false h) := by
  rw [step_body_of_peek hc]
  simp [Body.see, hb, Reaction.map, perform]

/-- The star of an opener is held, and one more comment is open. -/
lemma step_of_opens (hc : Host.peek h = some c) (hopens : b.Opens c)
    (hl : ¬Body.Forbids o.maxDepth b.depth) : step o (.body b) h = .going (.body b.deeper) h := by
  obtain ⟨half, rfl⟩ := hopens
  rw [step_body_of_peek hc]
  simp [Body.see, half, Body.enter_of_not_forbids hl, Reaction.map, perform]

/-- The parenthesis of an inner closer is held, and one comment less is open. -/
lemma step_of_closes (hc : Host.peek h = some c) (hcloses : b.Closes c) (hdepth : b.depth - 1 ≠ 0) :
    step o (.body b) h = .going (.body b.shallower) h := by
  obtain ⟨half, rfl⟩ := hcloses
  rw [step_body_of_peek hc]
  simp [Body.see, half, Body.leave, Body.shallower, hdepth, Reaction.map, perform]

/-- A code point that neither ends the comment nor overflows is passed. -/
theorem reaches_after (hc : Host.peek h = some c) (hends : ¬b.Ends c)
    (hover : ¬b.Overflows o.maxDepth c) :
    Reaches o (.body b) h (.body (b.after c)) (Host.advance false h) := by
  -- What completes a delimiter is held first, as is what does not complete one that was begun.
  by_cases hopens : b.Opens c
  · have held := step_of_opens hc hopens fun hl => hover ⟨hopens, hl⟩
    rw [Body.after_of_opens hopens]
    obtain ⟨half, rfl⟩ := hopens
    exact .go held (.single (step_of_neither hc rfl))
  · by_cases hcloses : b.Closes c
    · have hdepth : b.depth - 1 ≠ 0 := by
        have : ¬b.depth ≤ 1 := fun hd => hends ⟨hcloses, hd⟩
        omega
      have held := step_of_closes (o := o) hc hcloses hdepth
      rw [Body.after_of_closes hcloses]
      obtain ⟨half, rfl⟩ := hcloses
      exact .go held (.single (step_of_neither hc rfl))
    · rw [Body.after_of_not hopens hcloses]
      exact (reaches_of_not_completed hc hopens hcloses).trans (.single (step_of_neither hc rfl))

/-- At the parenthesis that ends the comment the scan stops with a token. -/
lemma step_of_ends (hc : Host.peek h = some c) (hends : b.Ends c) :
    step o (.body b) h = .stopped (.ok ⟨.comment, b.deepest⟩) (report h) := by
  obtain ⟨⟨half, rfl⟩, hdepth⟩ := hends
  have hzero : b.depth - 1 = 0 := by omega
  rw [step_body_of_peek hc]
  simp [Body.see, half, Body.leave, Body.shallower, hzero, Reaction.map, perform]

/-- At the star of a forbidden opener the scan stops with the limit. -/
lemma step_of_overflows {l : UInt64} (hc : Host.peek h = some c) (hopens : b.Opens c)
    (hl : l ∈ o.maxDepth) (hle : l.toNat ≤ b.depth) :
    step o (.body b) h = .stopped (.error (.depthLimit l)) h := by
  obtain ⟨half, rfl⟩ := hopens
  rw [step_body_of_peek hc]
  simp [Body.see, half, Body.enter_of_forbids hl hle, Reaction.map, perform]

/-- At the end of the input the scan stops with the comments that are open. -/
lemma step_of_eof (hc : Host.peek h = none) :
    step o (.body b) h = .stopped (.error (.unterminated b.depth)) h := by
  rw [step, hc]
  rfl

/-- The outermost comment is opened, unless the limit forbids it. -/
lemma step_entering_of_not_forbids (hl : ¬Body.Forbids o.maxDepth 0) :
    step o .entering h = .going (.body .inside) h := by
  have hentered : Body.outside.enter o.maxDepth = .hold .inside := Body.enter_of_not_forbids hl
  simp [step, Phase.react, hentered, Reaction.map, perform]

/-- The outermost comment is refused if the limit forbids it. -/
lemma step_entering_of_forbids {l : UInt64} (hl : l ∈ o.maxDepth) (hle : l.toNat ≤ 0) :
    step o .entering h = .stopped (.error (.depthLimit l)) h := by
  have hrefused : Body.outside.enter o.maxDepth = .abstain (.depthLimit l) :=
    Body.enter_of_forbids hl hle
  simp [step, Phase.react, hrefused, Reaction.map, perform]

end

section

variable {σ : Type u} [BoundedHost σ] {o : Options} {b : Body} {h : σ}

/-- Where no half of a delimiter is kept, a scan goes on behind the code point that is seen. -/
lemma run_of_neither {depth deepest : Nat} {c : Char} (half : Half) (hc : Host.peek h = some c)
    (hhalf : Body.halfOf c = half) :
    run o (.body ⟨.neither, depth, deepest⟩) h =
      run o (.body ⟨half, depth, deepest⟩) (Host.advance false h) := by
  rw [run_of_going (step_of_neither hc rfl), hhalf]

/-- A first half that is not completed makes no difference, not even at the end of the input. -/
lemma run_of_not_completed (hopens : ∀ c ∈ Host.peek h, ¬b.Opens c)
    (hcloses : ∀ c ∈ Host.peek h, ¬b.Closes c) :
    run o (.body b) h = run o (.body { b with half := .neither }) h := by
  cases hc : Host.peek h with
  | none => rw [run_of_stopped (step_of_eof hc), run_of_stopped (step_of_eof hc)]
  | some c => exact (reaches_of_not_completed hc (hopens c hc) (hcloses c hc)).run_eq

end

end NestedComment.Scan
