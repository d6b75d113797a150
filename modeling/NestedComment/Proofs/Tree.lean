import NestedComment.Proofs.Cursor.Scan
import NestedComment.Proofs.Octets
import NestedComment.Proofs.Scan.Nesting
import NestedComment.Tree.Basic

/-!
# Trees of comments are recognised

A tree is well nested if no text in it has a part of a delimiter. Written out, such a tree is one
comment, whatever follows it (`scan_render`): a scan finds it as its token and counts its depth, or
stops with the limit if the tree is deeper than that. Its texts may be malformed, and end in the
middle of a code point, since a scan of bytes comes to the same (`run_entering_octets`).
-/

namespace NestedComment

open Scan

namespace Piece

mutual

/-- The comments of a piece that are open at once. -/
def depth : Piece → Nat
  | text _ => 0
  | delimiter _ => 0
  | nested pieces => depthAll pieces + 1

/-- The comments of pieces in a row that are open at once. -/
def depthAll : List Piece → Nat
  | [] => 0
  | p :: rest => max (depth p) (depthAll rest)

end

mutual

/-- A piece has no delimiter but those of its comments. -/
def WellNested : Piece → Prop
  | text bytes => ∀ b ∈ bytes, b ≠ 0x28 ∧ b ≠ 0x2A ∧ b ≠ 0x29
  | delimiter _ => False
  | nested pieces => AllWellNested pieces

/-- Pieces in a row have no delimiters but those of their comments. -/
def AllWellNested : List Piece → Prop
  | [] => True
  | p :: rest => WellNested p ∧ AllWellNested rest

end

end Piece

namespace Tree

/-- The comments of a tree that are open at once, the outermost included. -/
def depth (t : Tree) : Nat := Piece.depth (.nested t.pieces)

/-- A tree has no delimiters but those of its comments. -/
def WellNested (t : Tree) : Prop := Piece.WellNested (.nested t.pieces)

end Tree

namespace Piece

section

variable {limit : Option UInt64}

/-- A comment is written out between its delimiters. -/
lemma codePoints_render_nested (ps : List Piece) :
    Octets.codePoints (nested ps).render =
      '(' :: '*' :: (Octets.codePoints (renderAll ps) ++ ['*', ')']) := by
  rw [render, Octets.codePoints, List.map_cons, List.map_cons, List.map_append]
  rfl

/-- Pieces are written out one behind the other. -/
lemma codePoints_renderAll_cons (p : Piece) (ps : List Piece) :
    Octets.codePoints (renderAll (p :: ps)) =
      Octets.codePoints p.render ++ Octets.codePoints (renderAll ps) := by
  rw [renderAll, Octets.codePoints_append]

mutual

/-- A piece that the limit allows nests as deep as it is. -/
theorem nests_render {p : Piece} (hp : p.WellNested) {b : Body} (settled : b.Settled)
    (hlimit : ∀ l ∈ limit, b.depth + p.depth ≤ l.toNat) :
    b.Nests limit (Octets.codePoints p.render) p.depth := by
  match p with
  | text bytes =>
    rw [render, depth]
    exact settled.nests_of_inert (Octets.Inert.codePoints hp)
  | delimiter byte => exact False.elim hp
  | nested ps =>
    rw [depth] at hlimit
    rw [codePoints_render_nested, depth]
    apply Body.Nests.comment settled
    · rintro ⟨l, hl, hle⟩
      have := hlimit l hl
      omega
    · apply nests_renderAll hp (.opened b)
      intro l hl
      show b.depth + 1 + depthAll ps ≤ l.toNat
      have := hlimit l hl
      omega

/-- Well nested pieces nest, if the limit allows their depth. -/
theorem nests_renderAll {ps : List Piece} (hps : AllWellNested ps) {b : Body}
    (settled : b.Settled) (hlimit : ∀ l ∈ limit, b.depth + depthAll ps ≤ l.toNat) :
    b.Nests limit (Octets.codePoints (renderAll ps)) (depthAll ps) := by
  match ps with
  | [] => exact settled.nests_nil
  | p :: rest =>
    rw [depthAll] at hlimit
    rw [codePoints_renderAll_cons, depthAll]
    have first : b.Nests limit (Octets.codePoints p.render) p.depth := by
      apply nests_render hps.1 settled
      intro l hl
      exact (Nat.add_le_add_left (Nat.le_max_left _ _) _).trans (hlimit l hl)
    apply first.append
    apply nests_renderAll hps.2 (first.settled settled)
    intro l hl
    rw [first.depth_eq]
    exact (Nat.add_le_add_left (Nat.le_max_right _ _) _).trans (hlimit l hl)

end

variable {l : UInt64}

mutual

/-- A piece that is deeper than the limit allows is refused. -/
theorem refused_render {p : Piece} (hp : p.WellNested) {b : Body} (settled : b.Settled)
    (hle : b.depth ≤ l.toNat) (hlt : l.toNat < b.depth + p.depth) :
    b.Refused (some l) (Octets.codePoints p.render) := by
  match p with
  | text bytes => exact absurd hlt (not_lt.2 hle)
  | delimiter byte => exact False.elim hp
  | nested ps =>
    rw [depth] at hlt
    rw [codePoints_render_nested]
    -- Its own opener is refused, or else some piece in it is.
    by_cases hfull : l.toNat ≤ b.depth
    · exact (settled.refused_opener ⟨l, rfl, hfull⟩).append
    · have hforbids : ¬Body.Forbids (some l) b.depth := by
        rintro ⟨l', hl', hle'⟩
        cases hl'
        exact hfull hle'
      obtain ⟨hpasses, htrail⟩ := settled.opener hforbids
      have hinner : b.opened.Refused (some l) (Octets.codePoints (renderAll ps)) := by
        apply refused_renderAll hp (.opened b)
        · exact Nat.lt_of_not_le hfull
        · show l.toNat < b.depth + 1 + depthAll ps
          omega
      rw [← htrail] at hinner
      exact .behind hpasses hinner.append

/-- Well nested pieces are refused, if the limit does not allow their depth. -/
theorem refused_renderAll {ps : List Piece} (hps : AllWellNested ps) {b : Body}
    (settled : b.Settled) (hle : b.depth ≤ l.toNat) (hlt : l.toNat < b.depth + depthAll ps) :
    b.Refused (some l) (Octets.codePoints (renderAll ps)) := by
  match ps with
  | [] => exact absurd hlt (not_lt.2 hle)
  | p :: rest =>
    rw [depthAll] at hlt
    rw [codePoints_renderAll_cons]
    by_cases hfirst : l.toNat < b.depth + p.depth
    · exact (refused_render hps.1 settled hle hfirst).append
    · have first : b.Nests (some l) (Octets.codePoints p.render) p.depth := by
        apply nests_render hps.1 settled
        intro l' hl'
        cases hl'
        exact not_lt.1 hfirst
      apply Body.Refused.behind first.passes
      apply refused_renderAll hps.2 (first.settled settled)
      · rwa [first.depth_eq]
      · rw [first.depth_eq]
        omega

end

end

end Piece

section

variable {o : Options} {t : Tree}

/-- A tree is written out with four bytes for its own delimiters. -/
lemma Tree.length_render (t : Tree) :
    t.render.length = (Piece.renderAll t.pieces).length + 4 := by
  rw [Tree.render, Piece.render, List.length_cons, List.length_cons, List.length_append]
  rfl

/-- The text behind the opener of a tree. -/
lemma Tree.text_octets (t : Tree) (tail : List UInt8) :
    Readable.text (Octets.atOffset (t.render ++ tail) 2) =
      Octets.codePoints (Piece.renderAll t.pieces) ++ '*' :: ')' :: Octets.codePoints tail := by
  rw [Octets.text_eq, Octets.atOffset, Tree.render, Piece.render]
  show ((Piece.renderAll t.pieces ++ [0x2A, 0x29]) ++ tail).map Octets.codePoint = _
  rw [List.append_assoc, List.map_append]
  rfl

/-- A scan of bytes from behind the opener of a tree comes to its closer. -/
lemma run_entering_of_depth_le (ht : t.WellNested) (hlimit : ∀ l ∈ o.maxDepth, t.depth ≤ l.toNat)
    (tail : List UInt8) :
    let found := run o .entering (Octets.atOffset (t.render ++ tail) 2)
    found.1 = .ok ⟨.comment, t.depth⟩ ∧ found.2.tokenEnd = some t.render.length ∧
      found.2.position = t.render.length := by
  intro found
  have hdepth : t.depth = Piece.depthAll t.pieces + 1 := by rw [Tree.depth, Piece.depth]
  have hforbids : ¬Body.Forbids o.maxDepth 0 := by
    rintro ⟨l, hl, hle⟩
    have := hlimit l hl
    omega
  have nests : Body.inside.Nests o.maxDepth (Octets.codePoints (Piece.renderAll t.pieces))
      (Piece.depthAll t.pieces) := by
    apply Piece.nests_renderAll ht Body.settled_inside
    intro l hl
    show 1 + Piece.depthAll t.pieces ≤ l.toNat
    have := hlimit l hl
    omega
  have hrun := run_of_nests (Tree.text_octets t tail) Body.settled_inside le_rfl nests
  rw [← run_of_going (step_entering_of_not_forbids hforbids), Octets.length_codePoints] at hrun
  have hdeepest : max Body.inside.deepest (Body.inside.depth + Piece.depthAll t.pieces) =
      t.depth := by
    show max 1 (1 + Piece.depthAll t.pieces) = t.depth
    omega
  have hlength : t.render.length = 2 + ((Piece.renderAll t.pieces).length + 1 + 1) := by
    rw [Tree.length_render]
    omega
  have hroom : (Piece.renderAll t.pieces).length + 1 + 1 ≤
      (Octets.atOffset (t.render ++ tail) 2).rest.length := by
    rw [Octets.atOffset, List.length_drop, List.length_append]
    omega
  obtain ⟨hposition, hend⟩ := Octets.report_iterate hroom
  rw [show found = _ from hrun, hlength, hdeepest]
  exact ⟨rfl, hend, hposition⟩

/-- A scan refuses a well nested tree that is deeper than the limit. -/
lemma run_entering_of_lt_depth {l : UInt64} (ht : t.WellNested) (hl : l ∈ o.maxDepth)
    (hlt : l.toNat < t.depth) (tail : List UInt8) :
    (run o .entering (Octets.atOffset (t.render ++ tail) 2)).1 = .error (.depthLimit l) := by
  have hdepth : t.depth = Piece.depthAll t.pieces + 1 := by rw [Tree.depth, Piece.depth]
  rcases Nat.eq_zero_or_pos l.toNat with hzero | hpos
  · rw [run_of_stopped (step_entering_of_forbids hl hzero.le)]
  · have hforbids : ¬Body.Forbids o.maxDepth 0 := by
      rintro ⟨l', hl', hle⟩
      cases Option.mem_unique hl hl'
      omega
    have refused : Body.inside.Refused o.maxDepth
        (Octets.codePoints (Piece.renderAll t.pieces)) := by
      rw [Option.mem_def.1 hl]
      apply Piece.refused_renderAll ht Body.settled_inside
      · exact hpos
      · show l.toNat < 1 + Piece.depthAll t.pieces
        omega
    obtain ⟨l', hl', hrun⟩ := run_of_refused (Tree.text_octets t tail) refused
    cases Option.mem_unique hl hl'
    rw [run_of_going (step_entering_of_not_forbids hforbids), hrun]

/-- A scan of a tree gets behind its opener. -/
lemma reaches_render (o : Options) (t : Tree) (tail : List UInt8) :
    ∃ d, Reaches o .leading (Cursor.ofInput (t.render ++ tail)) .entering d ∧
      d.octets = Octets.atOffset (t.render ++ tail) 2 ∧ d.tokenStart = 0 := by
  let c := Cursor.ofInput (t.render ++ tail)
  have hr : c.rest = 0x28 :: 0x2A :: (Piece.renderAll t.pieces ++ [0x2A, 0x29] ++ tail) := rfl
  refine ⟨_, reaches_opener (Cursor.text_of_opener hr), ?_, Cursor.tokenStart_iterate_false c 2⟩
  rw [Cursor.octets_behind_opener hr]
  rfl

end

/-- A well nested tree is recognised, whatever follows it. If the limit allows its depth, a scan
finds all of it as one token and counts its depth. Otherwise it stops with the limit. -/
theorem scan_render (o : Options) {t : Tree} (ht : t.WellNested) (tail : List UInt8) :
    let found := Scan.scan o (Cursor.ofInput (t.render ++ tail))
    ((∀ l ∈ o.maxDepth, t.depth ≤ l.toNat) →
      found.1 = .ok ⟨.comment, t.depth⟩ ∧ found.2.token = .ok (some t.render) ∧
        found.2.tokenStart = 0 ∧ found.2.tokenEnd = some t.render.length ∧
        found.2.position = t.render.length) ∧
    ∀ l ∈ o.maxDepth, l.toNat < t.depth → found.1 = .error (.depthLimit l) := by
  intro found
  obtain ⟨d, reached, hoctets, hstart⟩ := reaches_render o t tail
  have hfound : found = run o .entering d := reached.run_eq
  have hraw := run_entering_octets o d
  rw [hoctets, ← hfound] at hraw
  refine ⟨fun hlimit => ?_, fun l hl hlt => ?_⟩
  · obtain ⟨hverdict, hend, hposition⟩ := run_entering_of_depth_le ht hlimit tail
    rw [hraw] at hverdict hend hposition
    have hzero : found.2.tokenStart = 0 := by
      rw [hfound, Cursor.tokenStart_run_inside o (p := .entering) trivial, hstart]
    have hinput : found.2.input = t.render ++ tail :=
      ((Cursor.placed_atOffset (t.render ++ tail) 0).scan o).1
    have htoken := Cursor.token_of_scan (show found = (.ok ⟨.comment, t.depth⟩, found.2) from
      Prod.ext hverdict rfl) (hzero.le.trans (Nat.zero_le _))
    refine ⟨hverdict, ?_, hzero, hend, hposition⟩
    rw [htoken, hinput, hzero, show found.2.position = _ from hposition, Cursor.span,
      List.drop_zero, Nat.sub_zero, List.take_left]
  · have hverdict := run_entering_of_lt_depth ht hl hlt tail
    rwa [hraw] at hverdict

/-- A sequence that an opener cuts short, comments that touch one another, and more text behind. -/
theorem scan_render_of_malformed :
    let t : Tree := ⟨[.text [0x61, 0xE2], .nested [.nested []], .nested [.text [0x82]]]⟩
    let input := t.render ++ [0x2A, 0x29]
    t.WellNested ∧ t.depth = 3 ∧
      (Scan.scan { maxDepth := some 3 } (Cursor.ofInput input)).1 = .ok ⟨.comment, 3⟩ ∧
      (Scan.scan { maxDepth := some 3 } (Cursor.ofInput input)).2.token =
        .ok (some [0x28, 0x2A, 0x61, 0xE2, 0x28, 0x2A, 0x28, 0x2A, 0x2A, 0x29, 0x2A, 0x29,
          0x28, 0x2A, 0x82, 0x2A, 0x29, 0x2A, 0x29]) ∧
      (Scan.scan { maxDepth := some 2 } (Cursor.ofInput input)).1 = .error (.depthLimit 2) := by
  intro t input
  have ht : t.WellNested := by
    simp [t, Tree.WellNested, Piece.WellNested, Piece.AllWellNested]
  have hdepth : t.depth = 3 := rfl
  have hthree : ∀ l ∈ some (3 : UInt64), t.depth ≤ l.toNat := by
    intro l hl
    cases hl
    exact hdepth.le
  have found := (scan_render { maxDepth := some 3 } ht [0x2A, 0x29]).1 hthree
  have refused := (scan_render { maxDepth := some 2 } ht [0x2A, 0x29]).2 2 rfl (by decide)
  exact ⟨ht, hdepth, found.1, found.2.1, refused⟩

end NestedComment
