import Mathlib.Data.Nat.Count
import Mathlib.Data.Nat.SuccPred
import Mathlib.Order.Bounds.Basic
import NestedComment.Proofs.Scan.Reading

/-!
# The balance of a text

How many comments are open after so many places of a text, counted from the text alone: one for the
outer opener, one more for every place where an opener stands, one less for every place where a
closer stands. Places may overlap, as in `(*)`. As long as the balance has not come to zero it is
the depth that the machine of the body keeps, one code point later (`depth_trail`), and the machine
stops where the balance says so (`passes_take`).
-/

namespace NestedComment

open Scan

/-- An opener stands at a place of a text. -/
def OpensAt (b : List Char) (j : Nat) : Prop := b[j]? = some '(' ∧ b[j + 1]? = some '*'

/-- A closer stands at a place of a text. -/
def ClosesAt (b : List Char) (j : Nat) : Prop := b[j]? = some '*' ∧ b[j + 1]? = some ')'

instance (b : List Char) : DecidablePred (OpensAt b) := fun _ => inferInstanceAs (Decidable (_ ∧ _))

instance (b : List Char) : DecidablePred (ClosesAt b) := fun _ => inferInstanceAs (Decidable (_ ∧ _))

/-- One and the openers at the first `k` places of a text, less the closers at these places. -/
def balance (b : List Char) (k : Nat) : Int :=
  1 + Nat.count (OpensAt b) k - Nat.count (ClosesAt b) k

section

variable {b : List Char} {k : Nat}

/-- No closer stands where an opener does. -/
lemma ClosesAt.not_opensAt (h : ClosesAt b k) : ¬OpensAt b k := by
  intro ho
  have hstar := h.1
  rw [ho.1] at hstar
  cases hstar

/-- Behind the outer opener one comment is open. -/
@[simp] lemma balance_zero (b : List Char) : balance b 0 = 1 := rfl

/-- An opener raises the balance by one. -/
lemma balance_succ_of_opensAt (h : OpensAt b k) : balance b (k + 1) = balance b k + 1 := by
  have hc : ¬ClosesAt b k := fun hc => hc.not_opensAt h
  simp only [balance, Nat.count_succ, if_pos h, if_neg hc]
  omega

/-- A closer lowers the balance by one. -/
lemma balance_succ_of_closesAt (h : ClosesAt b k) : balance b (k + 1) = balance b k - 1 := by
  simp only [balance, Nat.count_succ, if_pos h, if_neg h.not_opensAt]
  omega

/-- Where neither an opener nor a closer stands, the balance stays. -/
lemma balance_succ_of_not (ho : ¬OpensAt b k) (hc : ¬ClosesAt b k) :
    balance b (k + 1) = balance b k := by
  simp only [balance, Nat.count_succ, if_neg ho, if_neg hc]
  omega

/-- At each place stands an opener, a closer or neither. -/
lemma balance_succ_cases (b : List Char) (k : Nat) :
    (OpensAt b k ∧ balance b (k + 1) = balance b k + 1) ∨
      (ClosesAt b k ∧ balance b (k + 1) = balance b k - 1) ∨
      (¬OpensAt b k ∧ ¬ClosesAt b k ∧ balance b (k + 1) = balance b k) := by
  by_cases ho : OpensAt b k
  · exact .inl ⟨ho, balance_succ_of_opensAt ho⟩
  · by_cases hc : ClosesAt b k
    · exact .inr (.inl ⟨hc, balance_succ_of_closesAt hc⟩)
    · exact .inr (.inr ⟨ho, hc, balance_succ_of_not ho hc⟩)

/-- Until it comes to zero the balance is positive. -/
lemma balance_pos (h : ∀ j < k, balance b (j + 1) ≠ 0) : 0 < balance b k := by
  induction k with
  | zero => exact Int.one_pos
  | succ k ih =>
    have hk := ih fun j hj => h j (Nat.lt_succ_of_lt hj)
    have hne := h k (Nat.lt_succ_self k)
    rcases balance_succ_cases b k with ⟨-, e⟩ | ⟨-, e⟩ | ⟨-, -, e⟩
    · omega
    · omega
    · omega

/-- No place behind the last code point but one changes the balance. -/
lemma balance_of_length_le (h : b.length ≤ k + 1) : balance b (k + 1) = balance b k := by
  have hnone : b[k + 1]? = none := List.getElem?_eq_none h
  apply balance_succ_of_not
  · rintro ⟨-, hstar⟩
    rw [hnone] at hstar
    cases hstar
  · rintro ⟨-, hparen⟩
    rw [hnone] at hparen
    cases hparen

/-- A code point stands behind the first half of an opener. -/
lemma lt_length_of_opensAt (h : OpensAt b k) : k + 1 < b.length :=
  List.getElem?_eq_some_iff.1 h.2 |>.1

/-- A code point stands behind the first half of a closer. -/
lemma lt_length_of_closesAt (h : ClosesAt b k) : k + 1 < b.length :=
  List.getElem?_eq_some_iff.1 h.2 |>.1

/-- Two code points in a row are an opener if they are its halves. -/
lemma opensAt_iff {c d : Char} (hc : b[k]? = some c) (hd : b[k + 1]? = some d) :
    OpensAt b k ↔ c = '(' ∧ d = '*' := by
  simp [OpensAt, hc, hd]

/-- Two code points in a row are a closer if they are its halves. -/
lemma closesAt_iff {c d : Char} (hc : b[k]? = some c) (hd : b[k + 1]? = some d) :
    ClosesAt b k ↔ c = '*' ∧ d = ')' := by
  simp [ClosesAt, hc, hd]

/-- What the machine keeps behind the code point at place `k` of a text. -/
structure Keeps (b : List Char) (k : Nat) (s : Body) : Prop where
  half : ∃ c ∈ b[k]?, s.half = Body.halfOf c
  depth : (s.depth : Int) = balance b k
  deepest : IsGreatest (balance b '' Set.Iic k) s.deepest

/-- The machine sees an opener exactly where one stands. -/
lemma Keeps.opens_iff {s : Body} {d : Char} (hs : Keeps b k s) (hd : b[k + 1]? = some d) :
    s.Opens d ↔ OpensAt b k := by
  obtain ⟨c, hc, hhalf⟩ := hs.half
  rw [opensAt_iff hc hd, Body.Opens, hhalf, Body.halfOf_eq_opener]

/-- The machine sees a closer exactly where one stands. -/
lemma Keeps.closes_iff {s : Body} {d : Char} (hs : Keeps b k s) (hd : b[k + 1]? = some d) :
    s.Closes d ↔ ClosesAt b k := by
  obtain ⟨c, hc, hhalf⟩ := hs.half
  rw [closesAt_iff hc hd, Body.Closes, hhalf, Body.halfOf_eq_closer]

/-- More comments are open at place `k` of a text than a limit allows. -/
def Exceeds (limit : Option UInt64) (b : List Char) (k : Nat) : Prop :=
  ∃ l ∈ limit, (l.toNat : Int) < balance b k

/-- The machine sees the end of the comment exactly where the balance comes to zero. -/
lemma Keeps.ends_iff {s : Body} {d : Char} (hs : Keeps b k s) (hd : b[k + 1]? = some d)
    (hpos : 0 < balance b k) : s.Ends d ↔ balance b (k + 1) = 0 := by
  have hdepth := hs.depth
  rw [Body.Ends, hs.closes_iff hd]
  constructor
  · rintro ⟨hcloses, hle⟩
    rw [balance_succ_of_closesAt hcloses]
    omega
  · intro hzero
    rcases balance_succ_cases b k with ⟨-, e⟩ | ⟨hcloses, e⟩ | ⟨-, -, e⟩
    · omega
    · exact ⟨hcloses, by omega⟩
    · omega

/-- The machine sees one comment too many exactly where the balance first exceeds the limit. -/
lemma Keeps.overflows_iff {limit : Option UInt64} {s : Body} {d : Char} (hs : Keeps b k s)
    (hd : b[k + 1]? = some d) (hk : ¬Exceeds limit b k) :
    s.Overflows limit d ↔ Exceeds limit b (k + 1) := by
  have hdepth := hs.depth
  rw [Body.Overflows, hs.opens_iff hd]
  constructor
  · rintro ⟨hopens, l, hl, hle⟩
    refine ⟨l, hl, ?_⟩
    rw [balance_succ_of_opensAt hopens]
    omega
  · rintro ⟨l, hl, hlt⟩
    have hle : balance b k ≤ l.toNat := not_lt.1 fun h => hk ⟨l, hl, h⟩
    rcases balance_succ_cases b k with ⟨hopens, e⟩ | ⟨-, e⟩ | ⟨-, -, e⟩
    · exact ⟨hopens, l, hl, by omega⟩
    · omega
    · omega

/-- The greatest balance up to a place is the one at the place, or the greatest before it. -/
lemma isGreatest_balance_succ {m : Int} (h : IsGreatest (balance b '' Set.Iic k) m) :
    IsGreatest (balance b '' Set.Iic (k + 1)) (max (balance b (k + 1)) m) := by
  have hsplit : Set.Iic (k + 1) = insert (k + 1) (Set.Iic k) := Order.Iic_succ k
  rw [hsplit, Set.image_insert_eq]
  exact h.insert (balance b (k + 1))

/-- The machine keeps what it should behind the first code point. -/
lemma keeps_zero {c : Char} (hc : b[0]? = some c) : Keeps b 0 (Body.inside.after c) := by
  have hafter : Body.inside.after c = ⟨Body.halfOf c, 1, 1⟩ :=
    Body.after_of_not (by simp [Body.Opens, Body.inside, Body.deeper])
      (by simp [Body.Closes, Body.inside, Body.deeper])
  rw [hafter]
  refine ⟨⟨c, hc, rfl⟩, rfl, ⟨0, Set.mem_Iic.2 (Nat.le_refl 0), rfl⟩, ?_⟩
  rintro _ ⟨j, hj, rfl⟩
  rw [Nat.le_zero.1 (Set.mem_Iic.1 hj)]
  rfl

/-- Behind the next code point, unless it ends the comment, the machine keeps the next balance. -/
lemma Keeps.after {s : Body} {d : Char} (hs : Keeps b k s) (hd : b[k + 1]? = some d)
    (hends : ¬s.Ends d) : Keeps b (k + 1) (s.after d) := by
  have hdepth := hs.depth
  have hgreatest := isGreatest_balance_succ hs.deepest
  have hbound : balance b k ≤ s.deepest := hs.deepest.2 ⟨k, Set.mem_Iic.2 (Nat.le_refl k), rfl⟩
  have hhalf : ∃ c ∈ b[k + 1]?, (s.after d).half = Body.halfOf c := ⟨d, hd, Body.half_after s d⟩
  rcases balance_succ_cases b k with ⟨hopens, e⟩ | ⟨hcloses, e⟩ | ⟨hopens, hcloses, e⟩
  · have hafter := Body.after_of_opens ((hs.opens_iff hd).2 hopens)
    -- Only here the balance may come to be greater than ever before.
    have hmax : max (balance b (k + 1)) s.deepest = (max s.deepest (s.depth + 1) : Nat) := by
      rw [e]
      omega
    refine ⟨hhalf, ?_, ?_⟩
    · rw [hafter, e, ← hdepth]
      rfl
    · rw [hafter]
      rwa [hmax] at hgreatest
  · have hclosed := (hs.closes_iff hd).2 hcloses
    have hafter := Body.after_of_closes hclosed
    have htwo : ¬s.depth ≤ 1 := fun h => hends ⟨hclosed, h⟩
    have hle : balance b (k + 1) ≤ s.deepest := by omega
    refine ⟨hhalf, ?_, ?_⟩
    · rw [hafter, e, ← hdepth]
      exact Int.natCast_pred_of_pos (by omega)
    · rw [hafter]
      rwa [max_eq_right hle] at hgreatest
  · have hafter := Body.after_of_not (mt (hs.opens_iff hd).1 hopens)
      (mt (hs.closes_iff hd).1 hcloses)
    have hle : balance b (k + 1) ≤ s.deepest := e.trans_le hbound
    refine ⟨hhalf, ?_, ?_⟩
    · rw [hafter, e, ← hdepth]
    · rw [hafter]
      rwa [max_eq_right hle] at hgreatest

/-- Up to a place where the balance has neither come to zero nor exceeded the limit a text is
passed, and there the machine keeps the balance. -/
theorem passes_take {limit : Option UInt64} (hk : k < b.length)
    (hopen : ∀ j < k, balance b (j + 1) ≠ 0) (hlimit : ∀ j ≤ k, ¬Exceeds limit b j) :
    Body.inside.Passes limit (b.take (k + 1)) ∧ Keeps b k (Body.inside.trail (b.take (k + 1))) := by
  -- What the machine keeps at one place decides whether the next code point is passed.
  induction k with
  | zero =>
    cases b with
    | nil => cases hk
    | cons c cs =>
      have hends : ¬Body.inside.Ends c := by simp [Body.Ends, Body.Closes, Body.inside, Body.deeper]
      have hover : ¬Body.inside.Overflows limit c := by
        simp [Body.Overflows, Body.Opens, Body.inside, Body.deeper]
      exact ⟨⟨hends, hover, trivial⟩, keeps_zero rfl⟩
  | succ k ih =>
    have hlt : k < b.length := Nat.lt_of_succ_lt hk
    have hbefore : ∀ j < k, balance b (j + 1) ≠ 0 := fun j hj => hopen j (Nat.lt_succ_of_lt hj)
    obtain ⟨hpasses, hkeeps⟩ := ih hlt hbefore fun j hj => hlimit j (Nat.le_succ_of_le hj)
    have hd : b[k + 1]? = some b[k + 1] := List.getElem?_eq_getElem hk
    have hends : ¬(Body.inside.trail (b.take (k + 1))).Ends b[k + 1] := by
      rw [hkeeps.ends_iff hd (balance_pos hbefore)]
      exact hopen k (Nat.lt_succ_self k)
    have hover : ¬(Body.inside.trail (b.take (k + 1))).Overflows limit b[k + 1] := by
      rw [hkeeps.overflows_iff hd (hlimit k (Nat.le_succ k))]
      exact hlimit (k + 1) (Nat.le_refl _)
    rw [List.take_succ_eq_append_getElem hk, Body.passes_append, Body.trail_append]
    exact ⟨⟨hpasses, hends, hover, trivial⟩, hkeeps.after hd hends⟩

end

end NestedComment
