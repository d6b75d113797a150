import NestedComment.Proofs.Cursor.Abreast
import NestedComment.Proofs.Scan.Depth
import NestedComment.Proofs.Scan.Failure

/-!
# What a scan has not read

A scan that has found a token, or has refused an opener, has `Decided` by the bytes before some
offset, of which the last is a code point of its own (`last_of_decided`). Wherever else these bytes
stand a scan comes to the same place before the last of them (`reaches_of_shared`). So what stands
around them makes no difference (`scan_decided`), and no comment is the start of a longer one: what
decides the scan of an input that is cut off decides that of the whole input (`scan_of_cut`), so
nothing decides it before the end of the first comment (`scan_prefix_free`).
-/

namespace NestedComment

open Scan

/-- A token ends at an offset, or the byte before it is the star of an opener that a limit refuses.
-/
inductive Decided (stop : Nat) : Verdict → Cursor → Prop where
  | found {t : Token} {d : Cursor} : d.tokenEnd = some stop → Decided stop (.ok t) d
  | refused {l : UInt64} {d : Cursor} : 0 < l → d.position + 1 = stop →
    Decided stop (.error (.depthLimit l)) d

section

variable {o : Options} {c d k : Cursor} {p q : Phase} {v : Verdict} {stop : Nat}

/-- The last byte by which a scan decides is a code point of its own, and the scan stops before it.
-/
lemma last_of_decided (hs : scan o c = (v, d)) (decided : Decided stop v d) :
    ∃ q k x rest, (Reaches o .leading c q k ∧ step o q k = .stopped v d) ∧
      (k.rest = x :: rest ∧ x < 0x80 ∧ k.position + 1 = stop) ∧
      ∀ reason, v = .error reason → x = 0x2A := by
  obtain ⟨q, k, reached, hstop⟩ := stopped_of_returns (returns_iff_run.2 hs)
  rcases step_stopped_cases hstop with ⟨reason, hr, rfl, rfl⟩ | ⟨final, hparen, -, rfl, rfl⟩
  · cases decided with
    | refused hl hposition =>
      have fails := Phase.fails_of_abstain hr
      generalize hpeek : Host.peek d = seen at fails
      cases fails with
      | outermost _ hzero =>
        rw [UInt64.lt_iff_toNat_lt, hzero] at hl
        exact absurd hl (lt_irrefl 0)
      | deeper =>
        obtain ⟨rest, hrest, -⟩ := Cursor.rest_of_peek (x := 0x2A) (by decide) hpeek
        exact ⟨_, d, 0x2A, rest, ⟨reached, hstop⟩, ⟨hrest, by decide, hposition⟩, fun _ _ => rfl⟩
  · cases decided with
    | found hend =>
      obtain ⟨rest, hrest, -⟩ := Cursor.rest_of_peek (x := 0x29) (by decide) hparen
      have hmoved := Cursor.position_advance_of_lt false hrest (by decide)
      rw [Cursor.report_eq] at hend
      refine ⟨q, k, 0x29, rest, ⟨reached, hstop⟩, ⟨hrest, by decide, ?_⟩, ?_⟩
      · exact hmoved.symm.trans (Option.some.inj hend)
      · rintro reason ⟨⟩

variable {s tail : List UInt8} {x : UInt8} {rest : List UInt8}

/-- Before the last of some bytes a scan has passed all others. -/
lemma suffix_of_reaches (placed : c.Placed) (hc : c.rest = s ++ tail) (reached : Reaches o p c q k)
    (hrest : k.rest = x :: rest) (hstop : k.position + 1 = c.position + s.length) :
    rest = tail ∧ [x] <:+ s := by
  obtain ⟨hinput, placed'⟩ := placed.reaches reached
  have hlength := placed.length_eq
  have hlength' := placed'.length_eq
  have hsize : k.rest.length ≤ c.rest.length := reached.size_le
  rw [hinput] at hlength'
  have hplace : c.position + (s.length - 1) = k.position := by omega
  have hlast : s.drop (s.length - 1) ++ tail = [x] ++ rest := by
    rw [← List.drop_append_of_le_length (Nat.sub_le _ _), ← hc, placed.rest_eq, List.drop_drop,
      hplace, ← hinput, ← placed'.rest_eq, hrest]
    rfl
  have hone : (s.drop (s.length - 1)).length = [x].length := by
    rw [List.length_drop, List.length_singleton]
    omega
  obtain ⟨hx, htail⟩ := List.append_inj hlast hone
  exact ⟨htail.symm, hx ▸ List.drop_suffix _ _⟩

end

section

variable {o : Options} {q : Phase} {d e k : Cursor} {v : Verdict} {t : Token}
  {s tail tail' input input' rest : List UInt8} {x : UInt8} {start start' stop n : Nat}

/-- Where a scan stands before the last of some bytes, and this is a code point of its own, it comes
to the same wherever these bytes stand. -/
lemma reaches_of_shared (h : start ≤ input.length) (h' : start' ≤ input'.length)
    (hdrop : input.drop start = s ++ tail) (hdrop' : input'.drop start' = s ++ tail')
    (reached : Reaches o .leading (Cursor.atOffset input start) q k) (hrest : k.rest = x :: rest)
    (hx : x < 0x80) (hposition : k.position + 1 = start + s.length) :
    [x] <:+ s ∧ ∃ k', Reaches o .leading (Cursor.atOffset input' start') q k' ∧
      k.Abreast start start' rest tail' k' := by
  rw [← Cursor.position_atOffset h] at hposition
  obtain ⟨rfl, hlast⟩ := suffix_of_reaches (Cursor.placed_atOffset input start)
    ((Cursor.rest_atOffset h).trans hdrop) reached hrest hposition
  have abreast := Cursor.abreast_atOffset h h' hdrop hdrop' (Utf8.parted_of_last hlast hx rest)
    (Utf8.parted_of_last hlast hx tail')
  exact ⟨hlast, reached.abreast abreast (.inl (Cursor.length_lt_of_rest hrest))⟩

/-- A scan that has decided by the bytes between `p` and `t` depends on nothing else. Between any
other two lists of bytes it comes to the same verdict, and leaves its cursor and the bounds of the
token as far behind them. -/
theorem scan_decided {p s t : List UInt8}
    (hs : scan o (Cursor.atOffset (p ++ s ++ t) p.length) = (v, d))
    (decided : Decided (p.length + s.length) v d) (p' t' : List UInt8) :
    (∀ reason, v = .error reason → [0x2A] <:+ s) ∧
      ∃ d', scan o (Cursor.atOffset (p' ++ s ++ t') p'.length) = (v, d') ∧
        d.Aligned p.length p'.length d' := by
  have hdrop (front back : List UInt8) : (front ++ s ++ back).drop front.length = s ++ back := by
    rw [List.append_assoc, List.drop_left]
  have hlength (front back : List UInt8) : front.length ≤ (front ++ s ++ back).length := by
    rw [List.append_assoc, List.length_append]
    exact Nat.le_add_right _ _
  obtain ⟨q, k, x, rest, ⟨reached, hstop⟩, ⟨hrest, hx, hposition⟩, hstar⟩ :=
    last_of_decided hs decided
  obtain ⟨hlast, k', reached', abreast⟩ := reaches_of_shared (hlength p t) (hlength p' t')
    (hdrop p t) (hdrop p' t') reached hrest hx hposition
  refine ⟨fun reason hreason => hstar reason hreason ▸ hlast, ?_⟩
  exact scan_of_abreast abreast reached' (Cursor.length_lt_of_rest hrest) hstop

/-- Between half an opener and a byte that might go on from the last one, a comment of which one
byte is malformed is found as it is on its own, and so is an opener that is one too many. -/
theorem scan_decided_of_malformed :
    let p : List UInt8 := [0xE2, 0x28]
    let found : List UInt8 := [0x20, 0x28, 0x2A, 0xE2, 0x2A, 0x29]
    let refused : List UInt8 := [0x28, 0x2A, 0xC3, 0x28, 0x2A]
    let o : Options := { maxDepth := some 1 }
    let token : Verdict := .ok ⟨.comment, 1⟩
    let limit : Verdict := .error (.depthLimit 1)
    let d := (scan o (Cursor.atOffset (p ++ found ++ [0x80]) p.length)).2
    let e := (scan o (Cursor.atOffset (p ++ refused ++ [0x29]) p.length)).2
    (scan o (Cursor.atOffset (p ++ found ++ [0x80]) p.length) = (token, d) ∧
      Decided (p.length + found.length) token d ∧
      ∃ d', scan o (Cursor.atOffset found 0) = (token, d') ∧ d.Aligned p.length 0 d') ∧
    scan o (Cursor.atOffset (p ++ refused ++ [0x29]) p.length) = (limit, e) ∧
      Decided (p.length + refused.length) limit e ∧
      ∃ e', scan o (Cursor.atOffset refused 0) = (limit, e') ∧ e.Aligned p.length 0 e' := by
  intro p found refused o token limit d e
  have hfound : scan o (Cursor.atOffset (p ++ found ++ [0x80]) p.length) = (token, d) :=
    Prod.ext (by decide +kernel) rfl
  have hrefused : scan o (Cursor.atOffset (p ++ refused ++ [0x29]) p.length) = (limit, e) :=
    Prod.ext (by decide +kernel) rfl
  have decided : Decided (p.length + found.length) token d := .found (by decide +kernel)
  have decided' : Decided (p.length + refused.length) limit e :=
    .refused (by decide) (by decide +kernel)
  exact ⟨⟨hfound, decided, (scan_decided hfound decided [] []).2⟩, hrefused, decided',
    (scan_decided hrefused decided' [] []).2⟩

/-- Where a scan of an input that is cut off stands before a code point of one byte, the scan of the
whole input comes to the same. -/
lemma reaches_of_cut (reached : Reaches o .leading (Cursor.ofInput (input.take n)) q k)
    (hrest : k.rest = x :: rest) (hx : x < 0x80) :
    k.position < n ∧ rest = (input.drop (k.position + 1)).take (n - (k.position + 1)) ∧
      ∃ k', Reaches o .leading (Cursor.ofInput input) q k' ∧
        k.Abreast 0 0 rest (input.drop (k.position + 1)) k' := by
  obtain ⟨hinput, placed⟩ := (Cursor.placed_atOffset (input.take n) 0).reaches reached
  have hinput : k.input = input.take n := hinput
  have hlength := placed.length_eq
  have hplace := placed.rest_eq
  have hle := List.length_take_le n input
  rw [hinput, hrest] at hplace
  rw [hinput, hrest, List.length_cons] at hlength
  have hwhole : (input.take n).take (k.position + 1) = input.take (k.position + 1) := by
    rw [List.take_take, min_eq_left (by omega)]
  have hdrop : input.drop 0 = (input.take n).take (k.position + 1) ++
      input.drop (k.position + 1) := by
    rw [hwhole, List.take_append_drop]
    rfl
  have hsize : k.position + 1 = 0 + ((input.take n).take (k.position + 1)).length := by
    rw [List.length_take_of_le (by omega), Nat.zero_add]
  obtain ⟨-, moved⟩ := reaches_of_shared (Nat.zero_le _) (Nat.zero_le _)
    (List.take_append_drop (k.position + 1) _).symm hdrop reached hrest hx hsize
  refine ⟨by omega, ?_, moved⟩
  rw [← List.drop_take, ← List.drop_drop, ← hplace]
  rfl

/-- A scan that has decided in an input that is cut off comes to the same in the whole input. -/
lemma scan_of_cut (hs : scan o (Cursor.ofInput (input.take n)) = (v, d))
    (decided : Decided stop v d) :
    stop ≤ n ∧ ∃ d', scan o (Cursor.ofInput input) = (v, d') ∧ d.Aligned 0 0 d' := by
  obtain ⟨q, k, x, rest, ⟨reached, hstop⟩, ⟨hrest, hx, rfl⟩, -⟩ := last_of_decided hs decided
  obtain ⟨hlt, -, k', reached', abreast⟩ := reaches_of_cut reached hrest hx
  exact ⟨hlt, scan_of_abreast abreast reached' (Cursor.length_lt_of_rest hrest) hstop⟩

/-- Where a comment is found, behind the blanks, it starts with an opener. -/
lemma star_of_scan {g g' : Cursor} (abreast : g.Abreast start start' tail tail' g')
    (hparen : Host.peek g = some '(') (hrest : g.rest = 0x28 :: tail)
    (hs : scan o g' = (.ok t, e)) : ∃ rest, tail' = 0x2A :: rest := by
  obtain ⟨s, hs', hrest', -⟩ := abreast.shared
  have hone : s = [0x28] := List.append_cancel_right (hs'.symm.trans hrest)
  have hblank : ∀ x ∈ Host.peek g', ¬o.isWhitespace x := by
    rw [← abreast.peek_eq (Cursor.length_lt_of_rest hrest), hparen]
    rintro _ ⟨⟩
    simp
  obtain ⟨rest, hopener, -⟩ := Cursor.opener_of_scan hblank hs
  rw [hopener, hone] at hrest'
  exact ⟨rest, (List.cons.inj hrest').2.symm⟩

/-- A scan that is cut off behind the parenthesis of the outer opener has nothing before it. -/
lemma partialOpener_of_cut {found : Option Char} (hs : scan o (Cursor.ofInput input) = (.ok t, e))
    (hcut : scan o (Cursor.ofInput (input.take n)) = (.error (.partialOpener found), d)) :
    found = none := by
  obtain ⟨q, reached, fails⟩ := fails_of_returns (returns_iff_run.2 hcut)
  generalize hpeek : Host.peek d = seen at fails
  cases fails with
  | partialOpener hne =>
    obtain ⟨g, before, hparen, rfl⟩ := paren_of_reaches reached
    obtain ⟨tail, hrest, hnext⟩ := Cursor.rest_of_peek (x := 0x28) (by decide) hparen
    obtain ⟨-, htail, g', before', abreast⟩ := reaches_of_cut before hrest (by decide)
    obtain ⟨rest, hstar⟩ := star_of_scan abreast hparen hrest (before'.run_eq.symm.trans hs)
    cases tail with
    | nil =>
      rw [← hpeek]
      exact Host.peek_eq_none_iff.2 (List.isEmpty_iff.2 hnext)
    | cons y tail =>
      have hprefix : y :: tail <+: 0x2A :: rest := by
        rw [htail, hstar]
        exact List.take_prefix _ _
      obtain ⟨rfl, -⟩ := List.cons_prefix_cons.1 hprefix
      refine absurd ?_ hne
      rw [← hpeek, Cursor.peek_of_rest hnext, Utf8.decode_cons_of_lt (by decide)]
      rfl

/-- The reasons to abstain before a comment of which the end is missing. -/
inductive Unfinished : Abstention → Prop where
  | notAComment {found : Option Char} : Unfinished (.notAComment found)
  | partialOpener : Unfinished (.partialOpener none)
  | unterminated {depth : Nat} : Unfinished (.unterminated depth)

/-- No comment is the start of a longer one. If a scan finds a token, then in an input that is cut
off before the end of the token it finds none, nor does a limit stop it, and it names no symbol and
marks no end. -/
theorem scan_prefix_free (hs : scan o (Cursor.ofInput input) = (.ok t, e))
    (hstop : e.tokenEnd = some stop) (hn : n < stop) :
    ∃ reason d, scan o (Cursor.ofInput (input.take n)) = (.error reason, d) ∧ Unfinished reason ∧
      d.symbol = none ∧ d.tokenEnd = none := by
  obtain ⟨v, d, hcut⟩ : ∃ v d, scan o (Cursor.ofInput (input.take n)) = (v, d) := ⟨_, _, rfl⟩
  cases v with
  | ok t' =>
    have hend := (Cursor.position_lt_of_scan hcut).2
    obtain ⟨hle, d', hwhole, aligned⟩ := scan_of_cut hcut (.found hend)
    cases hs.symm.trans hwhole
    have hsame := aligned.tokenEnd
    rw [hend, hstop] at hsame
    have hsame : d.position = stop := Option.some.inj hsame
    omega
  | error reason =>
    obtain ⟨hend, hsymbol⟩ := Cursor.kept_of_error hcut
    refine ⟨reason, d, hcut, ?_, hsymbol, hend⟩
    cases reason with
    | notAComment found => exact .notAComment
    | partialOpener found =>
      obtain rfl := partialOpener_of_cut hs hcut
      exact .partialOpener
    | unterminated depth => exact .unterminated
    | depthLimit l =>
      have hl := mem_of_depthLimit (returns_iff_run.2 hcut)
      obtain ⟨hpos, hle⟩ := deepest_of_returns (returns_iff_run.2 hs) Phase.bounded_leading
      have hlimit : 0 < l := UInt64.lt_iff_toNat_lt.2 (hpos.trans_le (hle l hl))
      obtain ⟨-, d', hwhole, -⟩ := scan_of_cut hcut (.refused hlimit rfl)
      cases hs.symm.trans hwhole

/-- A comment behind a blank of three bytes, cut off inside a code point of two bytes. -/
theorem scan_prefix_free_inside_char :
    let input := [0xE2, 0x80, 0xA8, 0x28, 0x2A, 0xC3, 0xA9, 0x28, 0x2A, 0x29, 0x2A, 0x29, 0x78]
    let o : Options := { maxDepth := some 2 }
    let e := (scan o (Cursor.ofInput input)).2
    scan o (Cursor.ofInput input) = (.ok ⟨.comment, 2⟩, e) ∧ e.tokenEnd = some 12 ∧ 6 < 12 ∧
      ∃ reason d, scan o (Cursor.ofInput (input.take 6)) = (.error reason, d) ∧
        Unfinished reason ∧ d.symbol = none ∧ d.tokenEnd = none := by
  intro input o e
  have hs : scan o (Cursor.ofInput input) = (.ok ⟨.comment, 2⟩, e) :=
    Prod.ext (by decide +kernel) rfl
  have hstop : e.tokenEnd = some 12 := by decide +kernel
  exact ⟨hs, hstop, by decide, scan_prefix_free hs hstop (by decide)⟩

end

end NestedComment
