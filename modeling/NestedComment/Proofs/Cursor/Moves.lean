import NestedComment.Proofs.Cursor.Scan

/-!
# Cursors in use

A host moves a cursor along, marks and names tokens, resumes and scans, in whatever order. `Move` is
one such call and `Cursor.move` is what it does. A cursor is `Reachable` in an input if moves lead
to it from the start. Every move keeps the input and leaves the cursor placed (`Placed.move`), and
so is every cursor that is reachable (`Reachable.placed`). No move leads back before the start of
the token or its marked end (`Trails.move`), so neither is beyond a cursor that is reachable
(`Reachable.trails`).
-/

namespace NestedComment

/-- What a host may do with a cursor. -/
inductive Move where
  | moveTo (offset : Nat)
  | advance (skip : Bool)
  | markEnd
  | setSymbol (s : Symbol)
  | resume
  | scan (o : Options)

namespace Cursor

/-- The cursor after a move. -/
def move (c : Cursor) : Move → Cursor
  | .moveTo offset => atOffset c.input offset
  | .advance skip => c.advance skip
  | .markEnd => c.markEnd
  | .setSymbol s => c.setSymbol s
  | .resume => c.resume
  | .scan o => (Scan.scan o c).2

/-- A cursor to which moves lead from the start of an input. -/
inductive Reachable (input : List UInt8) : Cursor → Prop where
  | start : Reachable input (ofInput input)
  | move {c : Cursor} (m : Move) : Reachable input c → Reachable input (c.move m)

section

variable {input : List UInt8} {c : Cursor}

/-- A move keeps the input and leaves the cursor placed. -/
lemma Placed.move (placed : c.Placed) (m : Move) :
    (c.move m).input = c.input ∧ (c.move m).Placed := by
  cases m with
  | moveTo offset => exact ⟨rfl, placed_atOffset c.input offset⟩
  | advance skip => exact ⟨input_advance skip c, placed.advance skip⟩
  | markEnd => exact ⟨rfl, placed.markEnd⟩
  | setSymbol s => exact ⟨rfl, placed.setSymbol s⟩
  | resume => exact ⟨rfl, placed_atOffset c.input _⟩
  | scan o => exact placed.scan o

/-- A cursor to which moves lead stands in the input they started from. -/
theorem Reachable.placed (reachable : c.Reachable input) : c.input = input ∧ c.Placed := by
  induction reachable with
  | start => exact ⟨rfl, placed_atOffset input 0⟩
  | move m _ ih =>
    obtain ⟨hinput, placed⟩ := ih.2.move m
    exact ⟨hinput.trans ih.1, placed⟩

/-- The token of a cursor trails it: its start and its marked end are not beyond the cursor. -/
structure Trails (c : Cursor) : Prop where
  tokenStart_le : c.tokenStart ≤ c.position
  tokenEnd_le : ∀ stop ∈ c.tokenEnd, stop ≤ c.position

/-- The token of a new cursor trails it. -/
lemma trails_atOffset (input : List UInt8) (offset : Nat) : (atOffset input offset).Trails := by
  refine ⟨le_rfl, ?_⟩
  intro stop hstop
  cases hstop

/-- A token still trails its cursor when the cursor moves. -/
lemma Trails.advance (trails : c.Trails) (skip : Bool) : (c.advance skip).Trails := by
  refine ⟨(tokenStart_le_advance skip trails.tokenStart_le).2, ?_⟩
  intro stop hstop
  rw [tokenEnd_advance] at hstop
  exact (trails.tokenEnd_le stop hstop).trans (position_le_advance skip c)

/-- A token still trails its cursor when its end is marked. -/
lemma Trails.markEnd (trails : c.Trails) : c.markEnd.Trails := by
  refine ⟨trails.tokenStart_le, ?_⟩
  intro stop hstop
  cases hstop
  exact le_rfl

/-- A token still trails its cursor when its symbol is named. -/
lemma Trails.setSymbol (trails : c.Trails) (s : Symbol) : (c.setSymbol s).Trails :=
  ⟨trails.tokenStart_le, trails.tokenEnd_le⟩

/-- A token still trails its cursor behind a scan. -/
lemma Trails.scan (trails : c.Trails) (o : Options) : (Scan.scan o c).2.Trails := by
  rcases Scan.run_preserves (o := o) (P := Trails) (fun skip _ _ hd => hd.advance skip) .leading c
    trails with ⟨reason, -, hd⟩ | ⟨t, g, hrun, -, hg⟩
  · exact hd
  · rw [Scan.scan, hrun]
    exact ((hg.setSymbol .comment).advance false).markEnd

/-- Every move leaves the token behind the cursor. -/
lemma Trails.move (trails : c.Trails) (m : Move) : (c.move m).Trails := by
  cases m with
  | moveTo offset => exact trails_atOffset c.input offset
  | advance skip => exact trails.advance skip
  | markEnd => exact trails.markEnd
  | setSymbol s => exact trails.setSymbol s
  | resume => exact trails_atOffset c.input _
  | scan o => exact trails.scan o

/-- The token of a cursor to which moves lead trails it. -/
theorem Reachable.trails (reachable : c.Reachable input) : c.Trails := by
  induction reachable with
  | start => exact trails_atOffset input 0
  | move m _ ih => exact ih.move m

end

end Cursor

end NestedComment
