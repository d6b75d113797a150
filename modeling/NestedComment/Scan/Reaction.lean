import NestedComment.Scan.Basic

/-!
# What the reactions of a scan have in common

A code point is consumed only if there is one, what was held is consumed by the next step that goes
on, and a token is found only at the parenthesis that closes the outermost comment. All that a step
can do to a host is in `step_going_cases` and `step_stopped_cases`.
-/

namespace NestedComment.Scan

/-- The steps that may pass inside a comment before the next code point is consumed. -/
def Half.pause : Half → Nat
  | .neither => 0
  | .closer => 1
  | .opener => 1

/-- The steps that may pass before the next code point is consumed. -/
def Phase.pause : Phase → Nat
  | .leading => 0
  | .opening => 0
  | .entering => 1
  | .body b => b.half.pause

/-- No more than one step passes before the next code point is consumed. -/
theorem Phase.pause_le_one (p : Phase) : p.pause ≤ 1 := by
  cases p with
  | body b => obtain ⟨half, _, _⟩ := b; cases half <;> simp [Phase.pause, Half.pause]
  | _ => simp [Phase.pause]

/-- Opening a comment consumes nothing. -/
theorem Body.enter_ne_consume {limit : Option UInt64} {b q : Body} {skip : Bool} :
    b.enter limit ≠ .consume skip q := by
  unfold Body.enter; split
  · nofun
  · split <;> nofun

/-- Closing a comment consumes nothing. -/
theorem Body.leave_ne_consume {b q : Body} {skip : Bool} : b.leave ≠ .consume skip q := by
  unfold Body.leave; split <;> nofun

/-- Behind an opener no half of a delimiter is kept. -/
theorem Body.half_of_enter {limit : Option UInt64} {b q : Body} (h : b.enter limit = .hold q) :
    q.half = .neither := by
  unfold Body.enter at h
  split at h
  · cases h; rfl
  · split at h
    · cases h
    · cases h; rfl

/-- Behind a closer no half of a delimiter is kept. -/
theorem Body.half_of_leave {b q : Body} (h : b.leave = .hold q) : q.half = .neither := by
  unfold Body.leave at h
  split at h <;> cases h
  rfl

/-- Only a parenthesis begins an opener. -/
theorem Body.halfOf_eq_opener {c : Char} : halfOf c = .opener ↔ c = '(' := by
  rw [halfOf]
  split
  · next hc => simp [hc]
  · split <;> simp_all

/-- Only a star begins a closer. -/
theorem Body.halfOf_eq_closer {c : Char} : halfOf c = .closer ↔ c = '*' := by
  rw [halfOf]
  split
  · next hc => simp [hc]
  · split <;> simp_all

/-- A machine consumes a code point exactly if the one inside it does. -/
theorem Reaction.map_eq_consume {α β : Type} {f : α → β} {r : Reaction α} {skip : Bool} {y : β} :
    r.map f = .consume skip y ↔ ∃ x, r = .consume skip x ∧ f x = y := by
  cases r <;> simp [Reaction.map, and_assoc]

/-- A machine holds a code point exactly if the one inside it does. -/
theorem Reaction.map_eq_hold {α β : Type} {f : α → β} {r : Reaction α} {y : β} :
    r.map f = .hold y ↔ ∃ x, r = .hold x ∧ f x = y := by
  cases r <;> simp [Reaction.map]

/-- Inside a comment no code point is skipped, and what is taken may be the first half of a
delimiter. -/
theorem Body.see_of_consume {limit : Option UInt64} {b q : Body} {c : Char} {skip : Bool}
    (h : b.see limit c = .consume skip q) :
    skip = false ∧ b.half = .neither ∧ q = { b with half := halfOf c } := by
  unfold Body.see at h
  split at h
  · next hb => cases h; exact ⟨rfl, hb, rfl⟩
  · split at h
    · exact absurd h leave_ne_consume
    · cases h
  · split at h
    · exact absurd h enter_ne_consume
    · cases h

/-- After a code point was held it is no second half of a delimiter. -/
theorem Body.half_of_see {limit : Option UInt64} {b q : Body} {c : Char}
    (h : b.see limit c = .hold q) : q.half = .neither ∧ b.half ≠ .neither := by
  unfold Body.see at h
  split at h
  · cases h
  · next hb =>
    refine ⟨?_, by simp [hb]⟩
    split at h
    · exact half_of_leave h
    · cases h; rfl
  · next hb =>
    refine ⟨?_, by simp [hb]⟩
    split at h
    · exact half_of_enter h
    · cases h; rfl

/-- Only a code point that is there can be consumed. -/
theorem Phase.exists_of_react {o : Options} {p q : Phase} {seen : Option Char} {skip : Bool}
    (h : p.react o seen = .consume skip q) : ∃ c, seen = some c := by
  cases seen with
  | some c => exact ⟨c, rfl⟩
  | none =>
    cases p with
    | entering =>
      obtain ⟨b, hb, -⟩ := Reaction.map_eq_consume.1 h
      exact absurd hb Body.enter_ne_consume
    | _ => cases h

/-- Opening a comment finds no token. -/
theorem Body.enter_ne_accept {limit : Option UInt64} {b q : Body} :
    b.enter limit ≠ .accept q := by
  unfold Body.enter; split
  · nofun
  · split <;> nofun

/-- A comment is closed by a parenthesis, and no comment is open then. -/
theorem Body.see_of_accept {limit : Option UInt64} {b f : Body} {c : Char}
    (h : b.see limit c = .accept f) :
    c = ')' ∧ b.half = .closer ∧ f = b.shallower ∧ f.depth = 0 := by
  unfold Body.see at h
  split at h
  · cases h
  · next hb =>
    split at h
    · next hc =>
      unfold Body.leave at h
      split at h
      · next hd => cases h; exact ⟨hc, hb, rfl, hd⟩
      · cases h
    · cases h
  · split at h
    · exact absurd h enter_ne_accept
    · cases h

/-- A machine finds a token exactly if the one inside it does. -/
theorem Reaction.map_eq_accept {α β : Type} {f : α → β} {r : Reaction α} {final : Body} :
    r.map f = .accept final ↔ r = .accept final := by
  cases r <;> simp [Reaction.map]

/-- Up to the star of the outer opener, every code point is consumed or ends the scan. -/
theorem Phase.consume_or_abstain {o : Options} {p : Phase} (seen : Option Char)
    (hp : p = .leading ∨ p = .opening) :
    (∃ skip q, p.react o seen = .consume skip q) ∨ ∃ reason, p.react o seen = .abstain reason := by
  rcases hp with rfl | rfl
  · cases seen with
    | none => exact .inr ⟨_, rfl⟩
    | some c =>
      by_cases hblank : o.isWhitespace c
      · exact .inl ⟨_, _, if_pos hblank⟩
      · by_cases hc : c = '('
        · exact .inl ⟨_, _, (if_neg hblank).trans (if_pos hc)⟩
        · exact .inr ⟨_, (if_neg hblank).trans (if_neg hc)⟩
  · cases seen with
    | none => exact .inr ⟨_, rfl⟩
    | some c =>
      by_cases hc : c = '*'
      · exact .inl ⟨_, _, if_pos hc⟩
      · exact .inr ⟨_, if_neg hc⟩

/-- A scan finds a token only at a parenthesis inside a comment. -/
theorem Phase.body_of_accept {o : Options} {p : Phase} {seen : Option Char} {f : Body}
    (h : p.react o seen = .accept f) : ∃ b c, p = .body b ∧ seen = some c ∧
      b.see o.maxDepth c = .accept f := by
  cases p with
  | leading =>
    obtain ⟨_, _, hr⟩ | ⟨_, hr⟩ := consume_or_abstain (o := o) seen (.inl rfl)
    · cases hr.symm.trans h
    · cases hr.symm.trans h
  | opening =>
    obtain ⟨_, _, hr⟩ | ⟨_, hr⟩ := consume_or_abstain (o := o) seen (.inr rfl)
    · cases hr.symm.trans h
    · cases hr.symm.trans h
  | entering => exact absurd (Reaction.map_eq_accept.1 h) Body.enter_ne_accept
  | body b =>
    cases seen with
    | none => cases h
    | some c => exact ⟨b, c, rfl, rfl, Reaction.map_eq_accept.1 h⟩

/-- A scan finds a token only where a closing parenthesis is seen. -/
theorem Phase.seen_of_accept {o : Options} {p : Phase} {seen : Option Char} {f : Body}
    (h : p.react o seen = .accept f) : seen = some ')' := by
  obtain ⟨b, c, -, rfl, hb⟩ := body_of_accept h
  rw [(Body.see_of_accept hb).1]

/-- The code points that a scan moves past: blanks, the parenthesis and the star of the outer
opener, and whatever stands inside the comment where no first half of a delimiter is kept. -/
theorem Phase.consume_cases {o : Options} {p q : Phase} {c : Char} {skip : Bool}
    (h : p.react o (some c) = .consume skip q) :
    (p = .leading ∧ q = .leading ∧ skip = true ∧ o.isWhitespace c = true) ∨
      (p = .leading ∧ q = .opening ∧ skip = false ∧ c = '(') ∨
      (p = .opening ∧ q = .entering ∧ skip = false ∧ c = '*') ∨
      ∃ b, p = .body b ∧ b.half = .neither ∧ skip = false ∧
        q = .body { b with half := Body.halfOf c } := by
  cases p with
  | leading =>
    simp only [react] at h
    split at h
    · next hc => cases h; exact .inl ⟨rfl, rfl, rfl, hc⟩
    · split at h
      · next hc => cases h; exact .inr (.inl ⟨rfl, rfl, rfl, hc⟩)
      · cases h
  | opening =>
    simp only [react] at h
    split at h
    · next hc => cases h; exact .inr (.inr (.inl ⟨rfl, rfl, rfl, hc⟩))
    · cases h
  | entering =>
    obtain ⟨b, hb, -⟩ := Reaction.map_eq_consume.1 h
    exact absurd hb Body.enter_ne_consume
  | body b =>
    obtain ⟨b', hb, rfl⟩ := Reaction.map_eq_consume.1 h
    obtain ⟨hskip, hhalf, rfl⟩ := Body.see_of_consume hb
    exact .inr (.inr (.inr ⟨b, rfl, hhalf, hskip, rfl⟩))

/-- A code point is held only inside the comment, and no first half of a delimiter is kept then. -/
theorem Phase.hold_cases {o : Options} {p q : Phase} {seen : Option Char}
    (h : p.react o seen = .hold q) :
    ∃ b, q = .body b ∧ b.half = .neither ∧
      (p = .entering ∨ ∃ b', p = .body b' ∧ b'.half ≠ .neither) := by
  cases p with
  | leading =>
    obtain ⟨_, _, hr⟩ | ⟨_, hr⟩ := consume_or_abstain (o := o) seen (.inl rfl)
    · cases hr.symm.trans h
    · cases hr.symm.trans h
  | opening =>
    obtain ⟨_, _, hr⟩ | ⟨_, hr⟩ := consume_or_abstain (o := o) seen (.inr rfl)
    · cases hr.symm.trans h
    · cases hr.symm.trans h
  | entering =>
    obtain ⟨b, hb, rfl⟩ := Reaction.map_eq_hold.1 h
    exact ⟨b, rfl, Body.half_of_enter hb, .inl rfl⟩
  | body b =>
    cases seen with
    | none => cases h
    | some c =>
      obtain ⟨b', hb, rfl⟩ := Reaction.map_eq_hold.1 h
      obtain ⟨hhalf, hne⟩ := Body.half_of_see hb
      exact ⟨b', rfl, hhalf, .inr ⟨b, rfl, hne⟩⟩

/-- A code point that was held is consumed by the next step that goes on. -/
theorem Phase.pause_lt_of_react {o : Options} {p q : Phase} {seen : Option Char}
    (h : p.react o seen = .hold q) : q.pause < p.pause := by
  obtain ⟨b, rfl, hhalf, hp⟩ := hold_cases h
  rw [show (Phase.body b).pause = 0 by simp [pause, hhalf, Half.pause]]
  rcases hp with rfl | ⟨b', rfl, hne⟩
  · exact Nat.one_pos
  · obtain ⟨half, _, _⟩ := b'
    cases half with
    | neither => exact absurd rfl hne
    | _ => exact Nat.one_pos

section

universe u

variable {σ : Type u} [Host σ] {o : Options} {p q : Phase} {h g : σ} {v : Verdict}

/-- What a step that goes on does to the host. -/
theorem step_going_cases (hs : step o p h = .going q g) :
    (p.react o (Host.peek h) = .hold q ∧ g = h) ∨
      ∃ skip c, Host.peek h = some c ∧ p.react o (some c) = .consume skip q ∧
        g = Host.advance skip h := by
  unfold step at hs
  cases hr : p.react o (Host.peek h) with
  | consume skip next =>
    rw [hr] at hs; cases hs
    obtain ⟨c, hc⟩ := Phase.exists_of_react hr
    rw [hc] at hr
    exact .inr ⟨skip, c, hc, hr, rfl⟩
  | hold next => rw [hr] at hs; cases hs; exact .inl ⟨rfl, rfl⟩
  | accept final => rw [hr] at hs; cases hs
  | abstain reason => rw [hr] at hs; cases hs

/-- What the last step of a scan does to the host. -/
theorem step_stopped_cases (hs : step o p h = .stopped v g) :
    (∃ reason, p.react o (Host.peek h) = .abstain reason ∧ v = .error reason ∧ g = h) ∨
      ∃ final, Host.peek h = some ')' ∧ p.react o (some ')') = .accept final ∧
        v = .ok ⟨.comment, final.deepest⟩ ∧ g = report h := by
  unfold step at hs
  cases hr : p.react o (Host.peek h) with
  | consume skip next => rw [hr] at hs; cases hs
  | hold next => rw [hr] at hs; cases hs
  | accept final =>
    rw [hr] at hs; cases hs
    have hc := Phase.seen_of_accept hr
    rw [hc] at hr
    exact .inr ⟨final, hc, hr, rfl, rfl⟩
  | abstain reason => rw [hr] at hs; cases hs; exact .inl ⟨reason, rfl, rfl, rfl⟩

end

end NestedComment.Scan
