import NestedComment.Check
import NestedComment.Proofs.Cursor.Comment
import NestedComment.Proofs.Plain
import NestedComment.Proofs.Scan.Depth
import NestedComment.Proofs.Scan.Failure

/-!
# Checks never fail

`Faultless` is what the check of one scan asks for (`inspect_eq_ok`), and every scan is faultless
(`faultless_make`). `Walks` is the loop of the check: it goes on at the marked end of a token, or
else at the next byte, and always further on. `run_eq_ok` says that the loop comes to the end of any
data and finds no fault.
-/

namespace NestedComment.Check

open Scan

/-- A scan that found a token agrees with the plain loop on its end, and took the bytes of a comment
that is as deep as the limit allows. A scan that found none agrees with the plain loop that there is
none, has named no symbol, and stands at the end of the input if the comment is still open. -/
inductive Faultless (o : Options) (plain : Option Nat) : Visit → Prop where
  | found {start stop : Nat} {t : Token} {d : Cursor} {bytes : List UInt8} :
    d.tokenEnd = some stop → plain = some stop → d.token = .ok (some bytes) →
    opener <+: bytes → closer <:+ bytes → 0 < t.deepest →
    (∀ l ∈ o.maxDepth, t.deepest ≤ l.toNat) → Faultless o plain ⟨start, .ok t, d⟩
  | missed {start : Nat} {reason : Abstention} {d : Cursor} :
    plain = none → d.symbol = none →
    (∀ depth, reason = .unterminated depth → Host.eof d = true) →
    Faultless o plain ⟨start, .error reason, d⟩

/-- The loop of the check from an offset on. It visits the offset, and goes on further behind. -/
inductive Walks (o : Options) (input : List UInt8) : Nat → List Visit → Prop where
  | done {start : Nat} : input.length ≤ start → Walks o input start []
  | found {start stop : Nat} {t : Token} {d : Cursor} {vs : List Visit} :
    start < input.length → scan o (Cursor.atOffset input start) = (.ok t, d) →
    d.tokenEnd = some stop → start < stop → Walks o input stop vs →
    Walks o input start (⟨start, .ok t, d⟩ :: vs)
  | missed {start : Nat} {reason : Abstention} {d : Cursor} {vs : List Visit} :
    start < input.length → scan o (Cursor.atOffset input start) = (.error reason, d) →
    Walks o input (start + 1) vs → Walks o input start (⟨start, .error reason, d⟩ :: vs)

section

variable {o : Options} {plain : Option Nat} {start : Nat} {t : Token} {reason : Abstention}
  {d : Cursor} {v : Visit}

/-- The check refuses a depth exactly if it is zero or exceeds the limit. -/
lemma impossibleDepth_iff : (decide (t.deepest = 0) || o.maxDepth.any (·.toNat < t.deepest)) ↔
    ¬(0 < t.deepest ∧ ∀ l ∈ o.maxDepth, t.deepest ≤ l.toNat) := by
  cases o.maxDepth with
  | none => simp [Nat.pos_iff_ne_zero]
  | some l => simp [Nat.pos_iff_ne_zero, or_iff_not_imp_left]

/-- A scan that found a token has no fault if the check passes it. -/
lemma faultless_of_found (h : inspect o plain ⟨start, .ok t, d⟩ = .ok ()) :
    Faultless o plain ⟨start, .ok t, d⟩ := by
  simp only [inspect] at h
  split at h
  · cases h
  · next stop hend =>
    split at h
    · cases h
    · next hplain =>
      split at h
      · next bytes htoken =>
        split at h
        · cases h
        · next hdelimited =>
          split at h
          · cases h
          · next hdepth =>
            simp only [Bool.not_eq_true, Bool.not_eq_false', Bool.and_eq_true,
              List.isPrefixOf_iff_prefix, List.isSuffixOf_iff_suffix] at hdelimited
            obtain ⟨hpos, hle⟩ := not_not.1 (mt impossibleDepth_iff.2 hdepth)
            exact .found hend (not_not.1 hplain) htoken hdelimited.1 hdelimited.2 hpos hle
      · cases h

/-- A scan that found no token has no fault if the check passes it. -/
lemma faultless_of_missed (h : inspect o plain ⟨start, .error reason, d⟩ = .ok ()) :
    Faultless o plain ⟨start, .error reason, d⟩ := by
  simp only [inspect] at h
  split at h
  · cases h
  · next hplain =>
    split at h
    · cases h
    · next hsymbol =>
      refine .missed (Option.eq_none_iff_forall_ne_some.2 hplain)
        (Option.eq_none_iff_forall_ne_some.2 hsymbol) ?_
      rintro depth rfl
      by_contra he
      simp only [Bool.not_eq_true] at he
      rw [he] at h
      cases h

/-- The check of a scan passes exactly if there is no fault in it. -/
theorem inspect_eq_ok : inspect o plain v = .ok () ↔ Faultless o plain v := by
  constructor
  · intro h
    obtain ⟨start, verdict, d⟩ := v
    cases verdict with
    | ok t => exact faultless_of_found h
    | error reason => exact faultless_of_missed h
  · intro h
    cases h with
    | found hend hplain htoken hopener hcloser hpos hle =>
      have hdepth := mt impossibleDepth_iff.1 (not_not.2 ⟨hpos, hle⟩)
      have hdelimited : (opener.isPrefixOf _ && closer.isSuffixOf _) = true :=
        Bool.and_eq_true_iff.2
          ⟨List.isPrefixOf_iff_prefix.2 hopener, List.isSuffixOf_iff_suffix.2 hcloser⟩
      simp only [inspect, hend, hplain, htoken, hdelimited]
      rw [if_neg (not_not.2 rfl), if_neg (by decide), if_neg hdepth]
      rfl
    | missed hplain hsymbol heof =>
      simp only [inspect, hplain, hsymbol]
      split
      · next depth =>
        rw [heof depth rfl]
        rfl
      · rfl

/-- The check of a walk passes exactly if there is no fault in any scan. -/
lemma run_cons_eq_ok {flags : UInt8} {input : List UInt8} :
    run (flags :: input) = .ok () ↔ ∀ v ∈ walk (options flags) input,
      Faultless (options flags) (plainEnd (options flags) input v.start) v := by
  rw [run, List.forM_eq_forM]
  induction walk (options flags) input with
  | nil => exact iff_of_true rfl (List.forall_mem_nil _)
  | cons v vs ih =>
    rw [List.forall_mem_cons, ← inspect_eq_ok, ← ih, List.forM_cons]
    cases inspect (options flags) (plainEnd (options flags) input v.start) v with
    | error violation => simp [bind, Except.bind]
    | ok u => simp [bind, Except.bind]

end

section

variable {o : Options} {input : List UInt8} {start : Nat} {t : Token} {reason : Abstention}
  {d : Cursor} {v : Visit}

/-- The plain loop ends where a scan that finds a token leaves the cursor, and nowhere else. -/
lemma plainEnd_eq (o : Options) (input : List UInt8) (start : Nat) :
    let found := scan o (Cursor.atOffset input start)
    plainEnd o input start = found.1.toOption.map fun _ => found.2.position := by
  intro found
  have agrees : Agrees _ found := scan_agrees o (Cursor.atOffset input start)
  rw [plainEnd]
  generalize Plain.scan o (Cursor.atOffset input start) = plain at agrees
  clear_value found
  cases agrees with
  | found t g =>
    rw [Cursor.report_eq]
    rfl
  | missed reason g => rfl

/-- No scan has a fault. -/
theorem faultless_make (h : start < input.length) :
    Faultless o (plainEnd o input start) (Visit.make o input start) := by
  rw [Visit.make]
  have hplain := plainEnd_eq o input start
  generalize hs : scan o (Cursor.atOffset input start) = found at hplain
  obtain ⟨verdict, d⟩ := found
  cases verdict with
  | ok t =>
    obtain ⟨bytes, -, -, comment, holds⟩ := Cursor.isComment_of_scan h.le hs
    obtain ⟨hpos, hle⟩ := deepest_of_returns (returns_iff_run.2 hs) Phase.bounded_leading
    have hstop : some d.position = some (d.tokenStart + bytes.length) := by rw [holds.position_eq]
    exact .found holds.tokenEnd_eq (hplain.trans hstop) holds.token_eq comment.opener
      comment.closer hpos hle
  | error reason =>
    refine .missed hplain (Cursor.kept_of_error hs).2 ?_
    rintro depth rfl
    exact eof_of_unterminated (returns_iff_run.2 hs)

/-- Every visit of a walk is the scan from its offset, which lies in the input. -/
lemma make_of_mem_walkFrom (h : v ∈ walkFrom o input start) :
    v.start < input.length ∧ v = Visit.make o input v.start := by
  fun_induction walkFrom o input start with
  | case1 start hlt visit ih =>
    rcases List.mem_cons.1 h with rfl | h
    · exact ⟨hlt, rfl⟩
    · exact ih h
  | case2 start h => cases h

/-- The loop comes to an end, and its visits are those of a walk. -/
theorem walks_walkFrom (o : Options) (input : List UInt8) (start : Nat) :
    Walks o input start (walkFrom o input start) := by
  fun_induction walkFrom o input start with
  | case1 start h visit ih =>
    have hlt := Visit.start_lt_next o h
    revert hlt ih
    rw [show visit = Visit.make o input start from rfl, Visit.make]
    generalize hs : scan o (Cursor.atOffset input start) = found
    obtain ⟨verdict, d⟩ := found
    cases verdict with
    | ok t => exact fun ih hlt => .found h hs (Cursor.position_lt_of_scan hs).2 hlt ih
    | error reason => exact fun ih _ => .missed h hs ih
  | case2 start h => exact .done (Nat.not_lt.1 h)

end

/-- The check passes on any data. Its loop goes on further behind each time until it comes to the
end of the input, and no scan on its way has a fault. -/
theorem run_eq_ok (data : List UInt8) :
    run data = .ok () ∧ ∀ flags input, data = flags :: input →
      Walks (options flags) input 0 (walk (options flags) input) ∧
        ∀ v ∈ walk (options flags) input,
          Faultless (options flags) (plainEnd (options flags) input v.start) v := by
  have faultless (o : Options) (input : List UInt8) :
      ∀ v ∈ walk o input, Faultless o (plainEnd o input v.start) v := by
    intro v hv
    obtain ⟨hlt, hmake⟩ := make_of_mem_walkFrom hv
    rw [hmake]
    exact faultless_make hlt
  refine ⟨?_, ?_⟩
  · cases data with
    | nil => rfl
    | cons flags input => exact run_cons_eq_ok.2 (faultless (options flags) input)
  · rintro flags input rfl
    exact ⟨walks_walkFrom _ _ _, faultless (options flags) input⟩

end NestedComment.Check
