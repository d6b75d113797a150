import Mathlib.Data.List.Infix
import NestedComment.Proofs.Cursor.Text

/-!
# Delimiters taken whole

The ordinary reading of a nested comment takes both code points of a delimiter at once, so that no
two delimiters overlap (`whole`). A scan differs from it in one rule: where a level is opened and
its star starts a closer, the level is closed again (`overlapping`, `comes_overlapping`). So both
are alike on a text without such places (`overlapping_eq_whole`), and without a limit they end alike
once these places are masked (`ending_overlapping`). `scan_readings` compares a scan with the
ordinary reading.
-/

namespace NestedComment

open Scan

universe u

/-- How the reading of a comment from behind its opener ends. -/
inductive Reading where
  /-- The comment is closed behind so many code points. -/
  | closed (deepest length : Nat)
  | unclosed (depth : Nat)
  | refused (limit : UInt64)
  deriving DecidableEq

namespace Reading

/-- The reading of a text before which `n` more code points stand. -/
def behind (n : Nat) : Reading → Reading
  | closed deepest length => closed deepest (length + n)
  | unclosed depth => unclosed depth
  | refused limit => refused limit

/-- The reading of one more comment inside `depth` others, unless the limit forbids it. -/
def enter (limit : Option UInt64) (depth : Nat) (inner : Reading) : Reading :=
  match limit with
  | none => inner
  | some l => if l.toNat ≤ depth then refused l else inner

/-- What a scan says of the comment. -/
def verdict : Reading → Verdict
  | closed deepest _ => .ok ⟨.comment, deepest⟩
  | unclosed depth => .error (.unterminated depth)
  | refused limit => .error (.depthLimit limit)

/-- The reading without its account of the nesting of the token. -/
def ending : Reading → Reading
  | closed _ length => closed 0 length
  | unclosed depth => unclosed depth
  | refused limit => refused limit

section

variable {limit : Option UInt64} {l : UInt64} {depth n : Nat} {r s : Reading}

/-- A comment that the limit forbids is refused. -/
lemma enter_of_forbids (hl : l ∈ limit) (hle : l.toNat ≤ depth) :
    r.enter limit depth = refused l := by
  cases hl
  exact if_pos hle

/-- A comment that the limit does not forbid is read. -/
lemma enter_of_not_forbids (h : ¬Body.Forbids limit depth) : r.enter limit depth = r := by
  cases limit with
  | none => rfl
  | some l => exact if_neg fun hle => h ⟨l, rfl, hle⟩

/-- Code points stand before a reading in one piece or in two. -/
lemma behind_behind {m : Nat} : (r.behind m).behind n = r.behind (m + n) := by
  cases r with
  | closed deepest length => exact congrArg _ (Nat.add_assoc ..)
  | unclosed depth => rfl
  | refused limit => rfl

/-- The code points before a reading do not change how it ends. -/
lemma ending_behind : (r.behind n).ending = r.ending.behind n := by
  cases r <;> rfl

/-- The end of a reading is where the comment is closed, however deep it was. -/
lemma ending_eq_closed : r.ending = closed 0 n ↔ ∃ deepest, r = closed deepest n := by
  cases r <;> simp [ending]

/-- The end of a reading leaves the comment open exactly if the reading does. -/
lemma ending_eq_unclosed : r.ending = unclosed depth ↔ r = unclosed depth := by
  cases r <;> simp [ending]

end

end Reading

/-- The ordinary reading of a text inside `depth` comments: it takes both code points of an opener
or a closer, and otherwise one. -/
def whole (limit : Option UInt64) (depth deepest : Nat) : List Char → Reading
  | '(' :: '*' :: cs =>
    .enter limit depth ((whole limit (depth + 1) (max deepest (depth + 1)) cs).behind 2)
  | '*' :: ')' :: cs =>
    if depth ≤ 1 then .closed deepest 2 else (whole limit (depth - 1) deepest cs).behind 2
  | _ :: cs => (whole limit depth deepest cs).behind 1
  | [] => .unclosed depth

/-- The reading in which the star of an opener may start a closer. -/
def overlapping (limit : Option UInt64) (depth deepest : Nat) : List Char → Reading
  | '(' :: '*' :: ')' :: cs =>
    .enter limit depth ((overlapping limit depth (max deepest (depth + 1)) cs).behind 3)
  | '(' :: '*' :: cs =>
    .enter limit depth ((overlapping limit (depth + 1) (max deepest (depth + 1)) cs).behind 2)
  | '*' :: ')' :: cs =>
    if depth ≤ 1 then .closed deepest 2 else (overlapping limit (depth - 1) deepest cs).behind 2
  | _ :: cs => (overlapping limit depth deepest cs).behind 1
  | [] => .unclosed depth

/-- The ordinary reading of a text behind the outer opener. -/
def readWhole (limit : Option UInt64) (cs : List Char) : Reading :=
  (whole limit 1 1 cs).enter limit 0

/-- A text with every `(*)` replaced by `xxx`. No such places overlap, as none ends the way one
starts. -/
def mask : List Char → List Char
  | '(' :: '*' :: ')' :: cs => 'x' :: 'x' :: 'x' :: mask cs
  | c :: cs => c :: mask cs
  | [] => []

section

variable {limit : Option UInt64} {depth deepest m : Nat} {c : Char} {cs : List Char}

/-- What the last case of a reading knows of the two code points of a delimiter. -/
lemma head_ne {d e : Char} (h : ∀ ds, c = d → cs = e :: ds → False) (hc : c = d) :
    cs.head? ≠ some e := by
  intro hhead
  obtain ⟨ds, hds⟩ := List.head?_eq_some_iff.1 hhead
  exact h ds hc hds

/-- A code point that starts no delimiter is taken alone. -/
lemma whole_cons (hopen : c = '(' → cs.head? ≠ some '*') (hclose : c = '*' → cs.head? ≠ some ')') :
    whole limit depth deepest (c :: cs) = (whole limit depth deepest cs).behind 1 := by
  rw [whole]
  · rintro ds hc rfl
    exact hopen hc rfl
  · rintro ds hc rfl
    exact hclose hc rfl

/-- Without places where delimiters overlap both readings are alike. -/
theorem overlapping_eq_whole (h : ¬['(', '*', ')'] <:+: cs) :
    overlapping limit depth deepest cs = whole limit depth deepest cs := by
  fun_induction overlapping limit depth deepest cs with
  | case1 depth deepest cs ih => exact absurd (List.infix_append [] _ cs) h
  | case2 depth deepest cs hparen ih =>
    rw [whole, ih fun h' => h (h'.trans (List.suffix_append ['(', '*'] cs).isInfix)]
  | case3 depth deepest cs hdepth => rw [whole, if_pos hdepth]
  | case4 depth deepest cs hdepth ih =>
    rw [whole, if_neg hdepth, ih fun h' => h (h'.trans (List.suffix_append ['*', ')'] cs).isInfix)]
  | case5 depth deepest c cs _ hopen hclose ih =>
    rw [whole, ih fun h' => h (h'.trans (List.suffix_cons c cs).isInfix)]
    · exact hopen
    · exact hclose
  | case6 => rfl

/-- A code point that does not begin `(*)` is kept. -/
lemma mask_cons (h : c = '(' → ¬['*', ')'] <+: cs) : mask (c :: cs) = c :: mask cs := by
  rw [mask]
  rintro ds hc rfl
  exact h hc ⟨ds, rfl⟩

/-- A masked text starts as the text does, or with a masked place. -/
lemma head_mask (cs : List Char) : (mask cs).head? = cs.head? ∨ (mask cs).head? = some 'x' := by
  fun_cases mask cs with
  | case1 => exact .inr rfl
  | case2 => exact .inl rfl
  | case3 => exact .inl rfl

/-- A masked text begins with no other code point than the text, unless with an `x`. -/
lemma head_mask_ne {d : Char} (h : cs.head? ≠ some d) (hd : d ≠ 'x') :
    (mask cs).head? ≠ some d := by
  rcases head_mask cs with e | e
  · rwa [e]
  · rw [e]
    exact fun hx => hd (Option.some.inj hx).symm

/-- Without a limit a place where delimiters overlap changes nothing of how a reading ends, so it
may be masked. -/
theorem ending_overlapping :
    (overlapping none depth deepest cs).ending = (whole none depth m (mask cs)).ending := by
  fun_induction overlapping none depth deepest cs generalizing m with
  | case1 depth deepest cs ih =>
    -- The level that is opened is closed at once, so three code points are passed either way.
    have hx (ds : List Char) : whole none depth m ('x' :: ds) = (whole none depth m ds).behind 1 :=
      whole_cons (absurd · (by decide)) (absurd · (by decide))
    rw [mask, hx, hx, hx, Reading.enter, Reading.behind_behind, Reading.behind_behind,
      Reading.ending_behind, Reading.ending_behind, ih (m := m)]
  | case2 depth deepest cs hparen ih =>
    have hmask : mask ('(' :: '*' :: cs) = '(' :: '*' :: mask cs := by
      rw [mask_cons, mask_cons (absurd · (by decide))]
      rintro - ⟨ds, hds⟩
      exact hparen ds (List.cons.inj hds).2.symm
    rw [hmask, whole, Reading.enter, Reading.enter, Reading.ending_behind, Reading.ending_behind, ih]
  | case3 depth deepest cs hdepth =>
    rw [mask_cons (absurd · (by decide)), mask_cons (absurd · (by decide)), whole, if_pos hdepth]
    rfl
  | case4 depth deepest cs hdepth ih =>
    rw [mask_cons (absurd · (by decide)), mask_cons (absurd · (by decide)), whole, if_neg hdepth,
      Reading.ending_behind, Reading.ending_behind, ih]
  | case5 depth deepest c cs hboth hopen hclose ih =>
    rw [mask_cons, whole_cons, Reading.ending_behind, Reading.ending_behind, ih]
    · exact fun hc => head_mask_ne (head_ne hopen hc) (by decide)
    · exact fun hc => head_mask_ne (head_ne hclose hc) (by decide)
    · rintro hc ⟨ds, rfl⟩
      exact hopen _ hc rfl
  | case6 => rfl

end

/-- A scan ends as a reading does that starts from the same place. -/
inductive Comes {σ : Type u} [Host σ] (h : σ) : Reading → Verdict × σ → Prop where
  | closed (deepest n : Nat) :
    Comes h (.closed deepest (n + 1))
      (.ok ⟨.comment, deepest⟩, report ((Host.advance false)^[n] h))
  | unclosed (depth : Nat) (g : σ) : Comes h (.unclosed depth) (.error (.unterminated depth), g)
  | refused (l : UInt64) (g : σ) : Comes h (.refused l) (.error (.depthLimit l), g)

section

variable {σ : Type u} [BoundedHost σ] {h : σ} {r : Reading} {found : Verdict × σ} {n : Nat}

/-- A scan that comes to a reading from behind `n` code points comes to it from before them. -/
lemma Comes.behind (comes : Comes ((Host.advance false)^[n] h) r found) :
    Comes h (r.behind n) found := by
  cases comes with
  | closed deepest k =>
    rw [← Function.iterate_add_apply, Reading.behind, Nat.add_right_comm]
    exact .closed deepest (k + n)
  | unclosed depth g => exact .unclosed depth g
  | refused l g => exact .refused l g

/-- A scan says of the comment what the reading does. -/
lemma Comes.verdict_eq (comes : Comes h r found) : found.1 = r.verdict := by
  cases comes <;> rfl

/-- A scan finds the comment unclosed exactly if the reading does. -/
lemma Comes.unterminated_iff {depth : Nat} (comes : Comes h r found) :
    found.1 = .error (.unterminated depth) ↔ r = .unclosed depth := by
  cases comes <;> simp

/-- The end of a token is where the reading is closed. -/
lemma Comes.tokenEnd_iff {d : Cursor} {found : Verdict × Cursor} (comes : Comes d r found)
    (stop : Nat) : (∃ t, found.1 = .ok t) ∧ found.2.tokenEnd = some stop ↔
      ∃ n, r.ending = .closed 0 n ∧ d.offsetAt n = stop := by
  cases comes with
  | closed deepest n =>
    have hstop : (report ((Host.advance false)^[n] d)).tokenEnd = some (d.offsetAt (n + 1)) := by
      rw [Cursor.report_eq, ← Function.iterate_succ_apply' (Host.advance false) n d,
        Cursor.position_iterate]
    simp [hstop, Reading.ending]
  | unclosed depth g => simp [Reading.ending]
  | refused l g => simp [Reading.ending]

/-- Behind a star the parenthesis of an inner closer is taken. -/
lemma run_of_closer {o : Options} {depth deepest : Nat} (hdepth : 0 < depth)
    (hc : Host.peek h = some ')') :
    run o (.body ⟨.closer, depth + 1, deepest⟩) h =
      run o (.body ⟨.neither, depth, deepest⟩) (Host.advance false h) := by
  have hcloses : Body.Closes ⟨.closer, depth + 1, deepest⟩ ')' := ⟨rfl, rfl⟩
  rw [run_of_going (step_of_closes hc hcloses (Nat.ne_of_gt hdepth)), Body.shallower,
    run_of_neither .neither hc rfl]
  rfl

end

section

variable {σ : Type u} [BoundedHost σ] [Readable σ] {o : Options} {h : σ} {r : Reading}
  {depth deepest : Nat} {c : Char} {cs : List Char}

/-- A code point that starts no delimiter is taken alone. -/
lemma run_of_cons (ht : Readable.text h = c :: cs) (hopen : c = '(' → cs.head? ≠ some '*')
    (hclose : c = '*' → cs.head? ≠ some ')') :
    run o (.body ⟨.neither, depth, deepest⟩) h =
      run o (.body ⟨.neither, depth, deepest⟩) (Host.advance false h) := by
  have hnext := Readable.peek_eq (Host.advance false h)
  rw [Readable.text_of_advance false ht] at hnext
  rw [run_of_neither _ (Readable.peek_of_text ht) rfl, run_of_not_completed]
  · rw [hnext]
    rintro d hd ⟨hhalf, rfl⟩
    exact hopen (Body.halfOf_eq_opener.1 hhalf) hd
  · rw [hnext]
    rintro d hd ⟨hhalf, rfl⟩
    exact hclose (Body.halfOf_eq_closer.1 hhalf) hd

/-- The star of an opener is taken as the first half of a closer, unless the limit forbids one more
comment. -/
lemma Comes.enter (ht : Readable.text h = '(' :: '*' :: cs)
    (inner : Comes h r (run o (.body ⟨.closer, depth + 1, max deepest (depth + 1)⟩)
      ((Host.advance false)^[2] h))) :
    Comes h (r.enter o.maxDepth depth) (run o (.body ⟨.neither, depth, deepest⟩) h) := by
  have hstar := Readable.peek_of_text (Readable.text_of_advance false ht)
  have hopens : Body.Opens ⟨.opener, depth, deepest⟩ '*' := ⟨rfl, rfl⟩
  rw [run_of_neither .opener (Readable.peek_of_text ht) rfl]
  by_cases hlimit : Body.Forbids o.maxDepth depth
  · obtain ⟨l, hl, hle⟩ := hlimit
    rw [Reading.enter_of_forbids hl hle, run_of_stopped (step_of_overflows hstar hopens hl hle)]
    exact .refused l _
  · rw [Reading.enter_of_not_forbids hlimit, run_of_going (step_of_opens hstar hopens hlimit)]
    rw [Body.deeper, run_of_neither .closer hstar rfl]
    exact inner

/-- Inside the comment a scan is the reading in which the star of an opener may start a closer. -/
theorem comes_overlapping (ht : Readable.text h = cs) (hdepth : 0 < depth) :
    Comes h (overlapping o.maxDepth depth deepest cs)
      (run o (.body ⟨.neither, depth, deepest⟩) h) := by
  fun_induction overlapping o.maxDepth depth deepest cs generalizing h with
  | case1 depth deepest cs ih =>
    have hrest : Readable.text ((Host.advance false)^[2] h) = ')' :: cs :=
      Readable.text_of_advance_two false ht
    apply Comes.enter ht
    rw [run_of_closer hdepth (Readable.peek_of_text hrest)]
    exact Comes.behind (n := 3) (ih (Readable.text_of_advance false hrest) hdepth)
  | case2 depth deepest cs hparen ih =>
    have hrest : Readable.text ((Host.advance false)^[2] h) = cs :=
      Readable.text_of_advance_two false ht
    apply Comes.enter ht
    -- The machine still has the star, but what follows does not complete a closer.
    rw [run_of_not_completed]
    · exact Comes.behind (ih hrest (Nat.succ_pos depth))
    · rintro c - ⟨hhalf, -⟩
      cases hhalf
    · rintro c hc ⟨-, rfl⟩
      rw [Readable.peek_eq, hrest] at hc
      obtain ⟨ds, hds⟩ := List.head?_eq_some_iff.1 hc
      exact hparen ds hds
  | case3 depth deepest cs hle =>
    have hrest := Readable.peek_of_text (Readable.text_of_advance false ht)
    have hends : Body.Ends ⟨.closer, depth, deepest⟩ ')' := ⟨⟨rfl, rfl⟩, hle⟩
    rw [run_of_neither .closer (Readable.peek_of_text ht) rfl,
      run_of_stopped (step_of_ends hrest hends)]
    exact .closed deepest 1
  | case4 depth deepest cs hlt ih =>
    have hrest := Readable.text_of_advance false ht
    obtain ⟨depth, rfl⟩ := Nat.exists_eq_add_of_le' hdepth
    have hpos : 0 < depth := by omega
    rw [run_of_neither .closer (Readable.peek_of_text ht) rfl,
      run_of_closer hpos (Readable.peek_of_text hrest)]
    exact Comes.behind (n := 2) (ih (Readable.text_of_advance false hrest) hpos)
  | case5 depth deepest c cs _ hopen hclose ih =>
    rw [run_of_cons ht]
    · exact Comes.behind (n := 1) (ih (Readable.text_of_advance false ht) hdepth)
    · exact head_ne hopen
    · exact head_ne hclose
  | case6 depth deepest =>
    rw [run_of_stopped (step_of_eof (Readable.peek_of_nil ht))]
    exact .unclosed depth h

/-- The limit may forbid even the outermost comment. -/
lemma comes_entering (ht : Readable.text h = cs) :
    Comes h ((overlapping o.maxDepth 1 1 cs).enter o.maxDepth 0) (run o .entering h) := by
  by_cases hlimit : Body.Forbids o.maxDepth 0
  · obtain ⟨l, hl, hle⟩ := hlimit
    rw [Reading.enter_of_forbids hl hle, run_of_stopped (step_entering_of_forbids hl hle)]
    exact .refused l h
  · rw [Reading.enter_of_not_forbids hlimit, run_of_going (step_entering_of_not_forbids hlimit)]
    exact comes_overlapping ht Nat.one_pos

end

/-- A scan that gets past the opener, and the ordinary reading of the text behind it. Without a
limit both end at the same place, or at the end of the input at the same depth, if every `(*)` of
the text is masked for the reading. On a text without `(*)` they are alike with any limit, and count
the same nesting. -/
theorem scan_readings (o : Options) {input : List UInt8} {offset : Nat} {d : Cursor}
    (reached : Reaches o .leading (Cursor.atOffset input offset) .entering d) :
    let found := Scan.scan o (Cursor.atOffset input offset)
    let b := Readable.text d
    (o.maxDepth = none →
      (∀ stop, (∃ t, found.1 = .ok t) ∧ found.2.tokenEnd = some stop ↔
        ∃ n deepest, readWhole none (mask b) = .closed deepest n ∧ d.offsetAt n = stop) ∧
      ∀ depth, found.1 = .error (.unterminated depth) ↔
        readWhole none (mask b) = .unclosed depth) ∧
    (¬['(', '*', ')'] <:+: b →
      found.1 = (readWhole o.maxDepth b).verdict ∧
      ∀ stop, (∃ t, found.1 = .ok t) ∧ found.2.tokenEnd = some stop ↔
        ∃ n deepest, readWhole o.maxDepth b = .closed deepest n ∧ d.offsetAt n = stop) := by
  intro found b
  have comes : Comes d ((overlapping o.maxDepth 1 1 b).enter o.maxDepth 0) found := by
    rw [show found = run o .entering d from reached.run_eq]
    exact comes_entering rfl
  refine ⟨?_, ?_⟩
  · intro hnone
    have hending : ((overlapping o.maxDepth 1 1 b).enter o.maxDepth 0).ending =
        (readWhole none (mask b)).ending := by
      rw [hnone]
      exact ending_overlapping
    refine ⟨fun stop => ?_, fun depth => ?_⟩
    · rw [comes.tokenEnd_iff, hending]
      simp only [Reading.ending_eq_closed, exists_and_right]
    · rw [comes.unterminated_iff, ← Reading.ending_eq_unclosed, hending, Reading.ending_eq_unclosed]
  · intro hfree
    rw [overlapping_eq_whole hfree] at comes
    refine ⟨comes.verdict_eq, fun stop => ?_⟩
    rw [comes.tokenEnd_iff]
    simp only [Reading.ending_eq_closed, exists_and_right, readWhole]

/-- The place in the middle of `(*(*)*)` is masked. In `(*(**)*)` both delimiters are taken, also
with a limit of two. -/
theorem scan_readings_of_overlapping :
    let overlaps := [0x28, 0x2A, 0x28, 0x2A, 0x29, 0x2A, 0x29, 0x78]
    let apart := [0x28, 0x2A, 0x28, 0x2A, 0x2A, 0x29, 0x2A, 0x29]
    ((∃ t, (Scan.scan {} (Cursor.atOffset overlaps 0)).1 = .ok t) ∧
      (Scan.scan {} (Cursor.atOffset overlaps 0)).2.tokenEnd = some 7) ∧
    (Scan.scan { maxDepth := some 2 } (Cursor.atOffset apart 0)).1 = .ok ⟨.comment, 2⟩ := by
  intro overlaps apart
  have hoverlaps : Readable.text (Cursor.atOffset overlaps 0) =
      ['(', '*', '(', '*', ')', '*', ')', 'x'] := by decide +kernel
  have hapart : Readable.text (Cursor.atOffset apart 0) =
      ['(', '*', '(', '*', '*', ')', '*', ')'] := by decide +kernel
  refine ⟨?_, ?_⟩
  · apply ((scan_readings {} (reaches_opener hoverlaps)).1 rfl).1 7 |>.2
    exact ⟨5, 1, by decide +kernel, by decide +kernel⟩
  · refine ((scan_readings { maxDepth := some 2 } (reaches_opener hapart)).2 ?_).1.trans ?_
    · decide +kernel
    · decide +kernel

end NestedComment
