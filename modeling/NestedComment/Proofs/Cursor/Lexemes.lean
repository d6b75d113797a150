import Mathlib.Order.Interval.Set.Basic
import NestedComment.Cursor.Lexemes
import NestedComment.Proofs.Cursor.Scan

/-!
# Lexemes partition their input

`Lexes` is the loop of a host that scans, takes the token if there is one, and otherwise takes one
code point. It comes to an end on every input, with the lexemes that are computed
(`lexes_lexemesFrom`). They tile the input (`tiles_lexemesFrom`): each follows the one before it,
and what is left between them holds nothing but blanks. `lexemes_partition` says so for whole
inputs, offset by offset.
-/

namespace NestedComment

/-- The lexemes that a host emits from a cursor on, until it comes to the end of the input. -/
inductive Lexes (o : Options) : Cursor → List Lexeme → Prop where
  /-- The scan finds a token, and the host goes on at its end. -/
  | comment {c d : Cursor} {t : Token} {stop : Nat} {ls : List Lexeme} :
    Scan.scan o c = (.ok t, d) → d.tokenEnd = some stop →
    d.token = .ok (some (Cursor.span c.input d.tokenStart stop)) → Lexes o d.resume ls →
    Lexes o c (⟨d.tokenStart, stop, .comment⟩ :: ls)
  /-- The scan finds none, and the host goes on behind the code point that follows the blanks. -/
  | char {c d e : Cursor} {reason : Abstention} {ls : List Lexeme} :
    Scan.scan o c = (.error reason, d) → e = Cursor.atOffset c.input d.tokenStart →
    Host.eof e = false → Lexes o (e.advance false).markEnd.resume ls →
    Lexes o c (⟨e.position, (e.advance false).position, .char (Host.lookahead e)⟩ :: ls)
  | finish {c d : Cursor} {reason : Abstention} :
    Scan.scan o c = (.error reason, d) →
    Host.eof (Cursor.atOffset c.input d.tokenStart) = true → Lexes o c []

/-- The spans that lexemes in a row leave between two offsets: before the first of them, between
each two, and behind the last. -/
def gaps (start stop : Nat) : List Lexeme → List (Nat × Nat)
  | [] => [(start, stop)]
  | l :: ls => (start, l.start) :: gaps l.stop stop ls

/-- All code points of some bytes are blanks. -/
def Blank (o : Options) (bytes : List UInt8) : Prop :=
  ∀ d ∈ Utf8.decodeAll bytes, o.isWhitespace d.char = true

namespace Lexeme

/-- A lexeme takes some bytes of the input. One of a code point takes exactly that code point, which
is no blank, and no comment starts there. -/
structure Sound (o : Options) (input : List UInt8) (l : Lexeme) : Prop where
  start_lt_stop : l.start < l.stop
  stop_le : l.stop ≤ input.length
  char : ∀ c, l.kind = .char c → Utf8.decode (input.drop l.start) = ⟨c, l.stop - l.start⟩ ∧
    o.isWhitespace c = false ∧
    ∃ reason, (Scan.scan o (Cursor.atOffset input l.start)).1 = .error reason

end Lexeme

/-- Lexemes in a row that leave nothing but blanks of an input from an offset on. -/
inductive Tiles (o : Options) (input : List UInt8) : Nat → List Lexeme → Prop where
  | nil {start : Nat} :
    start ≤ input.length → Blank o (Cursor.span input start input.length) → Tiles o input start []
  | cons {start : Nat} {l : Lexeme} {ls : List Lexeme} :
    start ≤ l.start → Blank o (Cursor.span input start l.start) → l.Sound o input →
    Tiles o input l.stop ls → Tiles o input start (l :: ls)

/-- Nothing but blanks is skipped. -/
lemma Cursor.Placed.blank_span {c : Cursor} (placed : c.Placed) (o : Options) :
    Blank o (span c.input c.position (c.offsetAt (Scan.blanks o c).length)) := by
  intro x hx
  rw [placed.decodeAll_span] at hx
  have hmem := List.mem_map_of_mem (f := Utf8.Decoded.char) hx
  have hblanks : (Readable.text c).take (Scan.blanks o c).length = Scan.blanks o c := by
    rw [Scan.text_eq_blanks_append o c]
    exact List.take_left
  rw [List.map_take, ← Cursor.text_eq, hblanks] at hmem
  exact List.mem_takeWhile_imp hmem

section

variable {o : Options} {input : List UInt8} {start : Nat} {v : Verdict} {d : Cursor}

/-- The blanks before a token are skipped, and a scan from behind them comes to the same. -/
lemma skipped_of_scan (h : start ≤ input.length)
    (hs : Scan.scan o (Cursor.atOffset input start) = (v, d)) :
    start ≤ d.tokenStart ∧ d.tokenStart ≤ input.length ∧
      Blank o (Cursor.span input start d.tokenStart) ∧
      Scan.scan o (Cursor.atOffset input d.tokenStart) = (v, d) ∧
      ∀ c ∈ Host.peek (Cursor.atOffset input d.tokenStart), ¬o.isWhitespace c := by
  let c := Cursor.atOffset input start
  have hposition : c.position = start := Cursor.position_atOffset h
  have placed : c.Placed := Cursor.placed_atOffset input start
  have hstart : d.tokenStart = c.offsetAt (Scan.blanks o c).length := by
    rw [← (Cursor.Fresh.atOffset input start).tokenStart_scan o, hs]
  have hbehind := Cursor.iterate_advance_true input start (Scan.blanks o c).length
  rw [hstart]
  refine ⟨?_, placed.offsetAt_le _, ?_, ?_, ?_⟩
  · rw [← hposition]
    exact Nat.le_add_right _ _
  · have hblank := placed.blank_span o
    rwa [hposition] at hblank
  · rw [← hs]
    exact (Cursor.scan_atOffset o input start).symm
  · rw [← hbehind, Readable.peek_eq, Scan.text_behindBlanks]
    intro x hx
    exact Scan.head_behindBlanks hx

/-- A comment that is found takes some bytes behind the blanks, and its token is these bytes. -/
lemma comment_of_scan {t : Token} (h : start ≤ input.length)
    (hs : Scan.scan o (Cursor.atOffset input start) = (.ok t, d)) :
    let l : Lexeme := ⟨d.tokenStart, d.position, .comment⟩
    l.Sound o input ∧ d.tokenEnd = some l.stop ∧
      d.token = .ok (some (l.bytes input)) ∧
      d.resume = Cursor.atOffset input l.stop := by
  intro l
  obtain ⟨-, hle, -, hagain, -⟩ := skipped_of_scan h hs
  obtain ⟨hlt, hend⟩ := Cursor.position_lt_of_scan hagain
  rw [Cursor.position_atOffset hle] at hlt
  obtain ⟨hinput, placed⟩ := (Cursor.placed_atOffset input start).scan o
  rw [hs] at hinput placed
  have hinput : d.input = input := hinput
  have hstop := placed.position_le
  rw [hinput] at hstop
  refine ⟨⟨hlt, hstop, fun c hc => ?_⟩, hend, ?_, ?_⟩
  · cases hc
  · rw [Cursor.token_of_scan hs (Nat.le_of_lt hlt), hinput]
    rfl
  · rw [Cursor.resume, hend, hinput]
    rfl

/-- The code point behind the blanks is no blank, and no comment starts there. -/
lemma char_of_scan {reason : Abstention} (h : start ≤ input.length)
    (hs : Scan.scan o (Cursor.atOffset input start) = (.error reason, d))
    (he : Host.eof (Cursor.atOffset input d.tokenStart) = false) :
    let e := Cursor.atOffset input d.tokenStart
    let l : Lexeme := ⟨e.position, (e.advance false).position, .char (Host.lookahead e)⟩
    l.start = d.tokenStart ∧ l.Sound o input ∧
      (e.advance false).markEnd.resume = Cursor.atOffset input l.stop := by
  intro e l
  obtain ⟨-, hle, -, hagain, hblank⟩ := skipped_of_scan h hs
  have hstart : e.position = d.tokenStart := Cursor.position_atOffset hle
  have placed : e.Placed := Cursor.placed_atOffset input d.tokenStart
  have hinput : (e.advance false).input = input := Cursor.input_advance false e
  refine ⟨hstart, ⟨Cursor.position_lt_advance false he, ?_, ?_⟩, ?_⟩
  · have hstop := (placed.advance false).position_le
    rwa [hinput] at hstop
  · intro c hc
    cases hc
    refine ⟨?_, ?_, reason, ?_⟩
    · show Utf8.decode e.rest = ⟨e.ahead.char, (e.advance false).position - e.position⟩
      rw [Cursor.position_advance false he, Nat.add_sub_cancel_left]
      rfl
    · exact Bool.eq_false_iff.2 (hblank _ (Host.peek_of_not_eof he))
    · show (Scan.scan o (Cursor.atOffset input e.position)).1 = .error reason
      rw [hstart, hagain]
  · rw [Cursor.resume, Cursor.markEnd, hinput]
    rfl

/-- At the end of the input no comment starts. -/
lemma scan_at_end {t : Token} : Scan.scan o (Cursor.atOffset input input.length) ≠ (.ok t, d) := by
  intro hs
  have hlt := (Cursor.position_lt_of_scan hs).1
  have hstop := ((Cursor.placed_atOffset input input.length).scan o).2.position_le
  rw [((Cursor.placed_atOffset input input.length).scan o).1, hs] at hstop
  rw [Cursor.position_atOffset le_rfl] at hlt
  exact absurd hstop (Nat.not_le.2 hlt)

end

/-- The lexemes that are computed leave nothing but blanks. -/
theorem tiles_lexemesFrom (o : Options) {input : List UInt8} {start : Nat}
    (h : start ≤ input.length) : Tiles o input start (lexemesFrom o input start) := by
  fun_induction lexemesFrom o input start with
  | case1 start hlt t d hs ih =>
    obtain ⟨hle, -, hblank, -⟩ := skipped_of_scan h hs
    obtain ⟨sound, -⟩ := comment_of_scan h hs
    exact .cons hle hblank sound (ih sound.stop_le)
  | case2 start hlt reason d hs e he =>
    obtain ⟨-, hle, hblank, -⟩ := skipped_of_scan h hs
    have hend : d.tokenStart = input.length := by
      have hlength := (Cursor.placed_atOffset input d.tokenStart).length_eq
      rw [List.isEmpty_iff.1 he, Cursor.position_atOffset hle] at hlength
      exact hlength
    rw [hend] at hblank
    exact .nil h hblank
  | case3 start hlt reason d hs e he stop ih =>
    obtain ⟨hle, -, hblank, -⟩ := skipped_of_scan h hs
    obtain ⟨hstart, sound, -⟩ := char_of_scan h hs (Bool.eq_false_iff.2 he)
    rw [← hstart] at hle hblank
    exact .cons hle hblank sound (ih sound.stop_le)
  | case4 start hlt =>
    have hend : start = input.length := Nat.le_antisymm h (Nat.not_lt.1 hlt)
    subst hend
    refine .nil h ?_
    intro x hx
    rw [Cursor.span, Nat.sub_self, List.take_zero, Utf8.decodeAll_nil] at hx
    cases hx

/-- The loop of the host comes to an end with the lexemes that are computed. -/
theorem lexes_lexemesFrom (o : Options) {input : List UInt8} {start : Nat}
    (h : start ≤ input.length) :
    Lexes o (Cursor.atOffset input start) (lexemesFrom o input start) := by
  fun_induction lexemesFrom o input start with
  | case1 start hlt t d hs ih =>
    obtain ⟨sound, hend, htoken, hresume⟩ := comment_of_scan h hs
    refine .comment hs hend htoken ?_
    rw [hresume]
    exact ih sound.stop_le
  | case2 start hlt reason d hs e he => exact .finish hs he
  | case3 start hlt reason d hs e he stop ih =>
    obtain ⟨hstart, sound, hresume⟩ := char_of_scan h hs (Bool.eq_false_iff.2 he)
    refine .char hs rfl (Bool.eq_false_iff.2 he) ?_
    rw [hresume]
    exact ih sound.stop_le
  | case4 start hlt =>
    have hend : start = input.length := Nat.le_antisymm h (Nat.not_lt.1 hlt)
    subst hend
    obtain ⟨⟨v, d⟩, hs⟩ : ∃ x, Scan.scan o (Cursor.atOffset input input.length) = x := ⟨_, rfl⟩
    cases v with
    | ok t => exact absurd hs scan_at_end
    | error reason =>
      obtain ⟨hge, hle, -⟩ := skipped_of_scan h hs
      refine .finish hs ?_
      show (input.drop (min d.tokenStart input.length)).isEmpty = true
      rw [Nat.min_eq_right hge, List.drop_length]
      rfl

/-- The loop of the host comes to one end only. -/
lemma Lexes.unique {o : Options} {c : Cursor} {ls ms : List Lexeme} (h : Lexes o c ls)
    (h' : Lexes o c ms) : ls = ms := by
  induction h generalizing ms with
  | comment hs hend htoken hrest ih =>
    cases h' with
    | comment hs' hend' htoken' hrest' =>
      cases hs.symm.trans hs'
      cases hend.symm.trans hend'
      rw [ih hrest']
    | char hs' => cases hs.symm.trans hs'
    | finish hs' => cases hs.symm.trans hs'
  | char hs he heof hrest ih =>
    cases h' with
    | comment hs' => cases hs.symm.trans hs'
    | char hs' he' heof' hrest' =>
      cases hs.symm.trans hs'
      cases he.trans he'.symm
      rw [ih hrest']
    | finish hs' heof' =>
      cases hs.symm.trans hs'
      rw [he, heof'] at heof
      cases heof
  | finish hs heof =>
    cases h' with
    | comment hs' => cases hs.symm.trans hs'
    | char hs' he' heof' hrest' =>
      cases hs.symm.trans hs'
      rw [he', heof] at heof'
      cases heof'
    | finish hs' => rfl

namespace Tiles

variable {o : Options} {input : List UInt8} {start i : Nat} {ls : List Lexeme}

/-- Lexemes that tile an input are sound. -/
lemma sound (h : Tiles o input start ls) : ∀ l ∈ ls, l.Sound o input := by
  induction h with
  | nil => simp
  | cons hle hblank hl hrest ih => exact List.forall_mem_cons.2 ⟨hl, ih⟩

/-- Lexemes that tile an input from an offset on start no earlier. -/
lemma le_start (h : Tiles o input start ls) : ∀ l ∈ ls, start ≤ l.start := by
  induction h with
  | nil => simp
  | cons hle hblank hl hrest ih =>
    refine List.forall_mem_cons.2 ⟨hle, fun m hm => ?_⟩
    exact hle.trans (hl.start_lt_stop.le.trans (ih m hm))

/-- Each lexeme follows those before it. -/
lemma pairwise (h : Tiles o input start ls) : ls.Pairwise fun l m => l.stop ≤ m.start := by
  induction h with
  | nil => exact .nil
  | cons hle hblank hl hrest ih => exact .cons hrest.le_start ih

/-- Lexemes that tile an input leave nothing but blanks between them. -/
lemma blank_gaps (h : Tiles o input start ls) :
    ∀ g ∈ gaps start input.length ls, Blank o (Cursor.span input g.1 g.2) := by
  induction h with
  | nil hle hblank => exact List.forall_mem_singleton.2 hblank
  | cons hle hblank hl hrest ih => exact List.forall_mem_cons.2 ⟨hblank, ih⟩

/-- The gaps between lexemes that tile an input from an offset on start no earlier. -/
lemma le_gaps (h : Tiles o input start ls) : ∀ g ∈ gaps start input.length ls, start ≤ g.1 := by
  induction h with
  | nil => simp [gaps]
  | cons hle hblank hl hrest ih =>
    refine List.forall_mem_cons.2 ⟨le_rfl, fun g hg => ?_⟩
    exact hle.trans (hl.start_lt_stop.le.trans (ih g hg))

/-- Each offset belongs to one lexeme, or else to a gap. -/
lemma owner (h : Tiles o input start ls) (hi : i ∈ Set.Ico start input.length) :
    (∃! l, l ∈ ls ∧ i ∈ Set.Ico l.start l.stop) ∧
        (∀ g ∈ gaps start input.length ls, i ∉ Set.Ico g.1 g.2) ∨
      (∀ l ∈ ls, i ∉ Set.Ico l.start l.stop) ∧
        ∃ g ∈ gaps start input.length ls, i ∈ Set.Ico g.1 g.2 := by
  induction h with
  | nil => exact .inr ⟨by simp, _, List.mem_singleton_self _, hi⟩
  | @cons start l ls hle hblank hl hrest ih =>
    have hpos := hl.start_lt_stop
    rcases lt_or_ge i l.stop with hstop | hstop
    · -- Whatever comes behind `l` is behind `i` as well.
      have hlater : ∀ m ∈ ls, i ∉ Set.Ico m.start m.stop := fun m hm h =>
        absurd (hstop.trans_le (hrest.le_start m hm)) (not_lt.2 h.1)
      have hgaps : ∀ g ∈ gaps l.stop input.length ls, i ∉ Set.Ico g.1 g.2 := fun g hg h =>
        absurd (hstop.trans_le (hrest.le_gaps g hg)) (not_lt.2 h.1)
      rcases lt_or_ge i l.start with hstart | hstart
      · exact .inr ⟨List.forall_mem_cons.2 ⟨fun h => absurd hstart (not_lt.2 h.1), hlater⟩,
          _, List.mem_cons_self, hi.1, hstart⟩
      · refine .inl ⟨⟨l, ⟨List.mem_cons_self, hstart, hstop⟩, ?_⟩,
          List.forall_mem_cons.2 ⟨fun h => absurd h.2 (not_lt.2 hstart), hgaps⟩⟩
        rintro m ⟨hm, hin⟩
        rcases List.mem_cons.1 hm with rfl | hm
        · rfl
        · exact absurd hin (hlater m hm)
    · have hnot : i ∉ Set.Ico l.start l.stop := fun h => absurd h.2 (not_lt.2 hstop)
      rcases ih ⟨hstop, hi.2⟩ with ⟨⟨m, hm, honly⟩, hgaps⟩ | ⟨hnone, g, hg, hin⟩
      · refine .inl ⟨⟨m, ⟨List.mem_cons_of_mem l hm.1, hm.2⟩, ?_⟩,
          List.forall_mem_cons.2 ⟨?_, hgaps⟩⟩
        · rintro k ⟨hk, hin⟩
          rcases List.mem_cons.1 hk with rfl | hk
          · exact absurd hin hnot
          · exact honly k ⟨hk, hin⟩
        · exact fun h => absurd h.2 (not_lt.2 (hpos.le.trans hstop))
      · exact .inr ⟨List.forall_mem_cons.2 ⟨hnot, hnone⟩, g, List.mem_cons_of_mem _ hg, hin⟩

end Tiles

/-- The loop of the host comes to an end on every input, with the lexemes that are computed and no
others. They follow one another and take some bytes each. Each byte of the input belongs to one of
them or else to a gap, and a gap holds nothing but blanks. A lexeme of one code point is that code
point, which is no blank, and no comment starts there. -/
theorem lexemes_partition (o : Options) (input : List UInt8) :
    let ls := lexemes o input
    let spaces := gaps 0 input.length ls
    (∀ ms, Lexes o (Cursor.ofInput input) ms ↔ ms = ls) ∧
    (∀ l ∈ ls, l.Sound o input) ∧
    ls.Pairwise (fun l m => l.stop ≤ m.start) ∧
    (∀ i < input.length,
      (∃! l, l ∈ ls ∧ i ∈ Set.Ico l.start l.stop) ∧ (∀ g ∈ spaces, i ∉ Set.Ico g.1 g.2) ∨
        (∀ l ∈ ls, i ∉ Set.Ico l.start l.stop) ∧ ∃ g ∈ spaces, i ∈ Set.Ico g.1 g.2) ∧
    ∀ g ∈ spaces, Blank o (Cursor.span input g.1 g.2) := by
  intro ls spaces
  have lexes : Lexes o (Cursor.ofInput input) ls := lexes_lexemesFrom o (Nat.zero_le _)
  have tiles : Tiles o input 0 ls := tiles_lexemesFrom o (Nat.zero_le _)
  refine ⟨?_, tiles.sound, tiles.pairwise, ?_, tiles.blank_gaps⟩
  · intro ms
    constructor
    · exact fun h => h.unique lexes
    · rintro rfl
      exact lexes
  · intro i hi
    exact tiles.owner ⟨Nat.zero_le i, hi⟩

end NestedComment
