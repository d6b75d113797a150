import NestedComment.Cursor.Cached
import NestedComment.Proofs.Cursor.Moves
import NestedComment.Proofs.Scan.Simulation

/-!
# The kept lookahead is never out of date

A cursor that keeps its lookahead does under every move what the cursor does that reads it anew
(`leads_iff`). Each operation is compared on its own, and a scan because no scan can tell the two
apart (`simulation_cached`). So moves lead to the one from the start of an input wherever they lead
to the other (`reachable_iff`), and what is known of the one is known of the other: it stands in its
input, its token trails it, and no read has failed. `coherent_of_reachable` puts this together.
-/

namespace NestedComment

open Scan

namespace Cursor

/-- The cursor with the lookahead that is read at its place. -/
def cached (e : Cursor) : CachedCursor where
  input := e.input
  position := e.position
  ahead := e.ahead
  tokenStart := e.tokenStart
  tokenEnd := e.tokenEnd
  symbol := e.symbol

section

variable {e : Cursor}

/-- The bytes from a cursor on can be taken, and are the ones it stands before. -/
lemma Placed.remaining_cached (placed : e.Placed) : e.cached.remaining = some e.rest := by
  rw [placed.rest_eq]
  exact if_pos placed.position_le

/-- Reading at the place of a cursor makes good whatever was kept before. -/
lemma Placed.refresh_cached (placed : e.Placed) (kept : Utf8.Decoded) :
    CachedCursor.refresh { e.cached with ahead := kept } = some e.cached := by
  have hrest : CachedCursor.remaining { e.cached with ahead := kept } = some e.rest :=
    placed.remaining_cached
  rw [CachedCursor.refresh, hrest]
  rfl

/-- A new cursor keeps the lookahead that is read at its place. -/
lemma atOffset_cached (input : List UInt8) (offset : Nat) :
    CachedCursor.atOffset input offset = some (atOffset input offset).cached :=
  (placed_atOffset input offset).refresh_cached _

/-- A cursor that keeps its lookahead knows of the end of the input. -/
lemma Placed.isAtEnd_cached (placed : e.Placed) : e.cached.isAtEnd = Host.eof e := by
  have hlength := placed.length_eq
  show decide (e.input.length ≤ e.position) = e.rest.isEmpty
  rw [Bool.eq_iff_iff, decide_eq_true_iff, List.isEmpty_iff_length_eq_zero]
  omega

/-- A cursor that keeps its lookahead moves like any other, and reads the next one. -/
lemma Placed.advance_cached (placed : e.Placed) (skip : Bool) :
    e.cached.advance skip = some (e.advance skip).cached := by
  rw [CachedCursor.advance, placed.isAtEnd_cached]
  cases he : Host.eof e with
  | true =>
    rw [if_pos rfl, advance_of_eof skip he]
  | false =>
    have moved := (placed.advance skip).refresh_cached e.ahead
    rw [advance_eq skip he] at moved ⊢
    exact moved

/-- A cursor that is resumed at the marked end of its token does not go out of its input. -/
lemma Trails.resume_cached (trails : e.Trails) (placed : e.Placed) :
    e.cached.resume = some e.resume.cached := by
  have hle : e.tokenEnd.getD e.position ≤ e.input.length := by
    cases hend : e.tokenEnd with
    | none => exact placed.position_le
    | some stop => exact (trails.tokenEnd_le stop hend).trans placed.position_le
  have resumed := (placed_atOffset e.input (e.tokenEnd.getD e.position)).refresh_cached e.ahead
  rw [resume, ← resumed, CachedCursor.resume, CachedCursor.restart]
  simp only [cached, atOffset, Nat.min_eq_left hle]

/-- No scan can tell a cursor that keeps its lookahead from one that reads it anew. -/
theorem simulation_cached :
    Simulation fun (x : Option CachedCursor) (e : Cursor) => x = some e.cached ∧ e.Placed where
  peek := by
    rintro x e ⟨rfl, placed⟩
    have heof : Host.eof (some e.cached) = Host.eof e := placed.isAtEnd_cached
    rw [Host.peek, Host.peek, heof]
    rfl
  advance skip x e related he := by
    obtain ⟨rfl, placed⟩ := related
    exact ⟨placed.advance_cached skip, placed.advance skip⟩
  markEnd := by
    rintro x e ⟨rfl, placed⟩
    exact ⟨rfl, placed.markEnd⟩
  setSymbol s x e related := by
    obtain ⟨rfl, placed⟩ := related
    exact ⟨rfl, placed.setSymbol s⟩
  eof_setSymbol s x e related := by
    obtain ⟨rfl, -⟩ := related
    rfl

end

end Cursor

namespace CachedCursor

/-- A move leads from one cursor to another. A scan does so if it comes to a verdict. -/
def Leads (m : Move) (x y : Option CachedCursor) : Prop :=
  match m with
  | .moveTo offset => y = x.bind fun c => atOffset c.input offset
  | .advance skip => y = Host.advance skip x
  | .markEnd => y = Host.markEnd x
  | .setSymbol s => y = Host.setSymbol s x
  | .resume => y = x.bind resume
  | .scan o => ∃ v, Returns o .leading x v y

/-- A cursor to which moves lead from the start of an input. -/
inductive Reachable (input : List UInt8) : Option CachedCursor → Prop where
  | start : Reachable input (atOffset input 0)
  | move {x y : Option CachedCursor} (m : Move) :
    Reachable input x → Leads m x y → Reachable input y

section

variable {input : List UInt8} {x y : Option CachedCursor} {c : CachedCursor} {e : Cursor}

/-- A scan comes to a verdict, and leaves what it leaves of the cursor that reads anew. -/
lemma returns_cached_iff (placed : e.Placed) {o : Options} {v : Verdict} :
    Returns o .leading (some e.cached) v y ↔ v = (scan o e).1 ∧ y = some (scan o e).2.cached := by
  constructor
  · intro returned
    obtain ⟨d, hd, rfl, -⟩ := Cursor.simulation_cached.returns ⟨rfl, placed⟩ returned
    rw [returns_iff_run, ← scan] at hd
    rw [hd]
    exact ⟨rfl, rfl⟩
  · rintro ⟨rfl, rfl⟩
    have returned : Returns o .leading e (scan o e).1 (scan o e).2 := returns_iff_run.2 rfl
    obtain ⟨y, hy, rfl, -⟩ := Cursor.simulation_cached.symm.returns ⟨rfl, placed⟩ returned
    exact hy

/-- Every move leads to exactly one cursor, and that keeps what it would read. -/
theorem leads_iff (placed : e.Placed) (trails : e.Trails) (m : Move) :
    Leads m (some e.cached) y ↔ y = some (e.move m).cached := by
  cases m with
  | moveTo offset =>
    rw [Cursor.move, ← Cursor.atOffset_cached]
    exact Iff.rfl
  | advance skip =>
    rw [Cursor.move, ← placed.advance_cached]
    exact Iff.rfl
  | markEnd => exact Iff.rfl
  | setSymbol s => exact Iff.rfl
  | resume =>
    rw [Cursor.move, ← trails.resume_cached placed]
    exact Iff.rfl
  | scan o =>
    constructor
    · rintro ⟨v, returned⟩
      exact ((returns_cached_iff placed).1 returned).2
    · intro hy
      exact ⟨_, (returns_cached_iff placed).2 ⟨rfl, hy⟩⟩

/-- Moves lead to a cursor that keeps its lookahead wherever they lead to one that reads it anew. -/
theorem reachable_iff :
    Reachable input x ↔ ∃ e : Cursor, e.Reachable input ∧ x = some e.cached := by
  constructor
  · intro reachable
    induction reachable with
    | start => exact ⟨_, .start, Cursor.atOffset_cached input 0⟩
    | move m _ leads ih =>
      obtain ⟨e, reachable, rfl⟩ := ih
      exact ⟨_, reachable.move m, (leads_iff reachable.placed.2 reachable.trails m).1 leads⟩
  · rintro ⟨e, reachable, rfl⟩
    induction reachable with
    | start =>
      rw [Cursor.ofInput, ← Cursor.atOffset_cached]
      exact .start
    | move m reachable ih =>
      exact .move m ih ((leads_iff reachable.placed.2 reachable.trails m).2 rfl)

/-- A cursor stands in its input, its token trails it, and what it keeps is what is read there. -/
structure Coherent (input : List UInt8) (c : CachedCursor) : Prop where
  input_eq : c.input = input
  position_le : c.position ≤ input.length
  tokenStart_le : c.tokenStart ≤ c.position
  tokenEnd_le : ∀ stop ∈ c.tokenEnd, stop ≤ c.position
  ahead_eq : c.ahead = Utf8.decode (input.drop c.position)

/-- A cursor to which moves lead is coherent with what it keeps. -/
lemma Coherent.of_reachable (reachable : e.Reachable input) : Coherent input e.cached := by
  obtain ⟨rfl, placed⟩ := reachable.placed
  obtain ⟨hstart, hend⟩ := reachable.trails
  refine ⟨rfl, placed.position_le, hstart, hend, ?_⟩
  exact congrArg Utf8.decode placed.rest_eq

/-- Moving leads further unless the input has ended, and then it changes nothing. -/
lemma advance_of_placed (placed : e.Placed) (skip : Bool) :
    ∃ d, e.cached.advance skip = some d ∧
      if e.cached.isAtEnd then d = e.cached else e.cached.position < d.position := by
  refine ⟨_, placed.advance_cached skip, ?_⟩
  rw [placed.isAtEnd_cached]
  cases he : Host.eof e with
  | true => exact congrArg Cursor.cached (Cursor.advance_of_eof skip he)
  | false => exact Cursor.position_lt_advance skip he

/-- Whatever moves lead to a cursor, no read has failed, the lookahead that it keeps is what it
would read, and every move leads on from it. -/
theorem coherent_of_reachable (reachable : Reachable input x) :
    ∃ c, x = some c ∧ (∃ e : Cursor, e.Reachable input ∧ c = e.cached) ∧ Coherent input c ∧
      c.remaining = some (input.drop c.position) ∧
      (c.isAtEnd = true ↔ c.ahead.width = 0) ∧ (c.isAtEnd = true → c.ahead = ⟨'\x00', 0⟩) ∧
      (∀ skip, ∃ d, c.advance skip = some d ∧
        if c.isAtEnd then d = c else c.position < d.position) ∧
      ∀ m, ∃ y, Leads m (some c) y := by
  obtain ⟨e, reachable', rfl⟩ := reachable_iff.1 reachable
  obtain ⟨rfl, placed⟩ := reachable'.placed
  have hend := placed.isAtEnd_cached
  refine ⟨e.cached, rfl, ⟨e, reachable', rfl⟩, .of_reachable reachable', ?_, ?_, ?_,
    advance_of_placed placed, ?_⟩
  · rw [placed.remaining_cached, placed.rest_eq]
    rfl
  · rw [hend]
    exact Cursor.eof_iff_width_ahead
  · rw [hend]
    exact Cursor.ahead_of_eof
  · intro m
    exact ⟨_, (leads_iff placed reachable'.trails m).2 rfl⟩

/-- A scan finds a comment, the cursor moves past a malformed sequence of two bytes to the end of
the input, and goes back to the end of the comment. -/
theorem coherent_of_reachable_resumed :
    let input : List UInt8 := [0x28, 0x2A, 0x2A, 0x29, 0xE2, 0x80]
    let c : CachedCursor := ⟨input, 4, ⟨'\uFFFD', 2⟩, 4, none, none⟩
    Reachable input (some c) ∧ Coherent input c ∧ c.remaining = some [0xE2, 0x80] ∧
      ∃ d, c.advance false = some d ∧ 4 < d.position := by
  intro input c
  have new : (Cursor.ofInput input).Reachable input := .start
  have resumed := ((new.move (.scan {})).move (.advance true)).move .resume
  have reachable : Reachable input (some c) := reachable_iff.2 ⟨_, resumed, by decide +kernel⟩
  obtain ⟨d, hd, -, coherent, hremaining, -, -, hadvance, -⟩ := coherent_of_reachable reachable
  obtain rfl : c = d := Option.some.inj hd
  exact ⟨reachable, coherent, hremaining, hadvance false⟩

end

end CachedCursor

end NestedComment
