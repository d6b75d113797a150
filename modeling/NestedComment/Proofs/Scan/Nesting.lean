import NestedComment.Proofs.Scan.Reading

/-!
# Texts that close what they open

Inside a comment, and not behind half an opener, a text that `Nests` is passed and leaves as many
comments open as it found. Such texts may stand in a row (`Nests.append`) and may be made a comment
of their own (`Nests.comment`). A text that is `Refused` opens more comments than the limit allows.
A scan that starts in such a state finds its token behind a text that nests (`run_of_nests`), and
none in a text that is refused (`run_of_refused`).
-/

namespace NestedComment.Scan

universe u

namespace Body

/-- Some comment is open, and no opener is begun. -/
structure Settled (b : Body) : Prop where
  half_ne : b.half ≠ .opener
  depth_pos : 0 < b.depth
  depth_le : b.depth ≤ b.deepest

/-- A text is passed and closes all the comments it opens, of which `k` are open at once. -/
structure Nests (limit : Option UInt64) (b : Body) (cs : List Char) (k : Nat) : Prop where
  passes : b.Passes limit cs
  half_ne : (b.trail cs).half ≠ .opener
  depth_eq : (b.trail cs).depth = b.depth
  deepest_eq : (b.trail cs).deepest = max b.deepest (b.depth + k)

/-- A text opens a comment that the limit forbids. -/
def Refused (limit : Option UInt64) (b : Body) (cs : List Char) : Prop :=
  ∃ front c back, cs = front ++ c :: back ∧ b.Passes limit front ∧ (b.trail front).Overflows limit c

/-- The state behind an opener. -/
def opened (b : Body) : Body := ⟨.closer, b.depth + 1, max b.deepest (b.depth + 1)⟩

section

variable {limit : Option UInt64} {b : Body} {cs ds : List Char} {k m : Nat}

/-- The state right after the outer opener is settled. -/
lemma settled_inside : Body.inside.Settled := ⟨nofun, Nat.one_pos, le_rfl⟩

/-- The state behind an opener is settled. -/
lemma Settled.opened (b : Body) : b.opened.Settled :=
  ⟨nofun, Nat.succ_pos _, le_max_right _ _⟩

/-- A text that nests keeps a state settled. -/
lemma Nests.settled (settled : b.Settled) (h : b.Nests limit cs k) : (b.trail cs).Settled := by
  refine ⟨h.half_ne, ?_, ?_⟩
  · rw [h.depth_eq]
    exact settled.depth_pos
  · rw [h.depth_eq, h.deepest_eq]
    exact settled.depth_le.trans (le_max_left _ _)

/-- Texts that nest may stand in a row. -/
lemma Nests.append (h : b.Nests limit cs k) (h' : (b.trail cs).Nests limit ds m) :
    b.Nests limit (cs ++ ds) (max k m) := by
  refine ⟨passes_append.2 ⟨h.passes, h'.passes⟩, ?_, ?_, ?_⟩
  · rw [trail_append]
    exact h'.half_ne
  · rw [trail_append, h'.depth_eq, h.depth_eq]
  · rw [trail_append, h'.deepest_eq, h.depth_eq, h.deepest_eq]
    omega

/-- The empty text nests. -/
lemma Settled.nests_nil (settled : b.Settled) : b.Nests limit [] 0 :=
  ⟨trivial, settled.half_ne, rfl, (max_eq_left settled.depth_le).symm⟩

/-- A text without any part of a delimiter nests. -/
lemma Settled.nests_of_inert (settled : b.Settled) (hcs : ∀ c ∈ cs, Inert c) :
    b.Nests limit cs 0 := by
  rcases eq_or_ne cs [] with rfl | hne
  · exact settled.nests_nil
  · refine ⟨passes_of_inert hcs, ?_, ?_, ?_⟩
    · rw [trail_of_inert hcs hne]
      nofun
    · rw [trail_of_inert hcs hne]
    · rw [trail_of_inert hcs hne]
      exact (max_eq_left settled.depth_le).symm

/-- The parenthesis of an opener only begins it. -/
lemma Settled.paren (settled : b.Settled) (limit : Option UInt64) :
    b.Passes limit ['('] ∧ b.trail ['('] = { b with half := .opener } := by
  have hopens : ¬b.Opens '(' := fun h => settled.half_ne h.1
  have hcloses : ¬b.Closes '(' := fun h => absurd h.2 (by decide)
  exact ⟨⟨fun h => hcloses h.1, fun h => hopens h.1, trivial⟩, after_of_not hopens hcloses⟩

/-- An opener that the limit allows is passed. -/
lemma Settled.opener (settled : b.Settled) (hlimit : ¬Forbids limit b.depth) :
    b.Passes limit ['(', '*'] ∧ b.trail ['(', '*'] = b.opened := by
  obtain ⟨hparen, htrail⟩ := settled.paren limit
  have hopens : (b.trail ['(']).Opens '*' := by
    rw [htrail]
    exact ⟨rfl, rfl⟩
  have hends : ¬(b.trail ['(']).Ends '*' := fun h => absurd h.1.2 (by decide)
  have hover : ¬(b.trail ['(']).Overflows limit '*' := by
    rintro ⟨-, hforbids⟩
    rw [htrail] at hforbids
    exact hlimit hforbids
  refine ⟨⟨hparen.1, hparen.2.1, hends, hover, trivial⟩, ?_⟩
  show (b.trail ['(']).after '*' = b.opened
  rw [after_of_opens hopens, htrail]
  rfl

/-- The star of a closer only begins it. -/
lemma Settled.star (settled : b.Settled) (limit : Option UInt64) :
    b.Passes limit ['*'] ∧ b.trail ['*'] = { b with half := .closer } := by
  have hopens : ¬b.Opens '*' := fun h => settled.half_ne h.1
  have hcloses : ¬b.Closes '*' := fun h => absurd h.2 (by decide)
  exact ⟨⟨fun h => hcloses h.1, fun h => hopens h.1, trivial⟩, after_of_not hopens hcloses⟩

/-- A closer inside another comment is passed. -/
lemma Settled.closer (settled : b.Settled) (limit : Option UInt64) (hdepth : 1 < b.depth) :
    b.Passes limit ['*', ')'] ∧ b.trail ['*', ')'] = ⟨.neither, b.depth - 1, b.deepest⟩ := by
  obtain ⟨hstar, htrail⟩ := settled.star limit
  have hcloses : (b.trail ['*']).Closes ')' := by
    rw [htrail]
    exact ⟨rfl, rfl⟩
  have hends : ¬(b.trail ['*']).Ends ')' := by
    rintro ⟨-, hle⟩
    rw [htrail] at hle
    exact absurd hle (not_le.2 hdepth)
  have hover : ¬(b.trail ['*']).Overflows limit ')' := fun h => absurd h.1.2 (by decide)
  refine ⟨⟨hstar.1, hstar.2.1, hends, hover, trivial⟩, ?_⟩
  show (b.trail ['*']).after ')' = _
  rw [after_of_closes hcloses, htrail]

/-- A text that nests makes a comment that nests. -/
lemma Nests.comment (settled : b.Settled) (hlimit : ¬Forbids limit b.depth)
    (h : b.opened.Nests limit cs k) :
    b.Nests limit ('(' :: '*' :: (cs ++ ['*', ')'])) (k + 1) := by
  obtain ⟨hopener, hopened⟩ := settled.opener hlimit
  have hdepth : (b.opened.trail cs).depth = b.depth + 1 := h.depth_eq
  have hpos := settled.depth_pos
  obtain ⟨hcloser, hclosed⟩ := (h.settled (.opened b)).closer limit (by omega)
  have htrail : b.trail ('(' :: '*' :: (cs ++ ['*', ')'])) =
      ⟨.neither, b.depth, (b.opened.trail cs).deepest⟩ := by
    rw [show '(' :: '*' :: (cs ++ ['*', ')']) = ['(', '*'] ++ (cs ++ ['*', ')']) from rfl,
      trail_append, hopened, trail_append, hclosed, hdepth, Nat.add_sub_cancel]
  refine ⟨?_, ?_, ?_, ?_⟩
  · rw [show '(' :: '*' :: (cs ++ ['*', ')']) = ['(', '*'] ++ (cs ++ ['*', ')']) from rfl,
      passes_append, hopened, passes_append]
    exact ⟨hopener, h.passes, hcloser⟩
  · rw [htrail]
    nofun
  · rw [htrail]
  · rw [htrail, h.deepest_eq]
    show max (max b.deepest (b.depth + 1)) (b.depth + 1 + k) = _
    omega

/-- A text is refused whatever follows it. -/
lemma Refused.append (h : b.Refused limit cs) : b.Refused limit (cs ++ ds) := by
  obtain ⟨front, c, back, rfl, hpasses, hover⟩ := h
  exact ⟨front, c, back ++ ds, by simp, hpasses, hover⟩

/-- A text is refused behind one that is passed. -/
lemma Refused.behind (hpasses : b.Passes limit cs) (h : (b.trail cs).Refused limit ds) :
    b.Refused limit (cs ++ ds) := by
  obtain ⟨front, c, back, rfl, hfront, hover⟩ := h
  refine ⟨cs ++ front, c, back, by simp, passes_append.2 ⟨hpasses, hfront⟩, ?_⟩
  rwa [trail_append]

/-- An opener is refused where the limit forbids one more comment. -/
lemma Settled.refused_opener (settled : b.Settled) (hlimit : Forbids limit b.depth) :
    b.Refused limit ['(', '*'] := by
  obtain ⟨hparen, htrail⟩ := settled.paren limit
  refine ⟨['('], '*', [], rfl, hparen, ?_⟩
  rw [htrail]
  exact ⟨⟨rfl, rfl⟩, hlimit⟩

end

end Body

section

variable {σ : Type u} [BoundedHost σ] [Readable σ] {o : Options} {b : Body} {h : σ}
  {cs rest : List Char} {k : Nat}

/-- The closer behind a text that nests ends the outermost comment. -/
theorem run_of_nests (ht : Readable.text h = cs ++ '*' :: ')' :: rest) (settled : b.Settled)
    (hdepth : b.depth ≤ 1) (nests : b.Nests o.maxDepth cs k) :
    run o (.body b) h = (.ok ⟨.comment, max b.deepest (b.depth + k)⟩,
      report ((Host.advance false)^[cs.length + 1] h)) := by
  have after := nests.settled settled
  obtain ⟨hstar, htrail⟩ := after.star o.maxDepth
  have hsplit : Readable.text h = (cs ++ ['*']) ++ ')' :: rest := by
    rw [ht, List.append_assoc]
    rfl
  have hlength : (cs ++ ['*']).length = cs.length + 1 := List.length_append
  have hrest := Readable.text_iterate false hsplit
  have passed := reaches_trail hsplit (Body.passes_append.2 ⟨nests.passes, hstar⟩)
  rw [hlength] at hrest passed
  rw [Body.trail_append, htrail] at passed
  have hends : ({ b.trail cs with half := .closer } : Body).Ends ')' := by
    refine ⟨⟨rfl, rfl⟩, ?_⟩
    show (b.trail cs).depth ≤ 1
    rwa [nests.depth_eq]
  rw [passed.run_eq, run_of_stopped (step_of_ends (Readable.peek_of_text hrest) hends),
    ← nests.deepest_eq]

/-- A scan stops with the limit in a text that is refused. -/
theorem run_of_refused (ht : Readable.text h = cs ++ rest) (refused : b.Refused o.maxDepth cs) :
    ∃ l ∈ o.maxDepth, (run o (.body b) h).1 = .error (.depthLimit l) := by
  obtain ⟨front, c, back, rfl, hpasses, hopens, l, hl, hle⟩ := refused
  rw [List.append_assoc] at ht
  have hrest := Readable.text_iterate false ht
  refine ⟨l, hl, ?_⟩
  rw [(reaches_trail ht hpasses).run_eq,
    run_of_stopped (step_of_overflows (Readable.peek_of_text hrest) hopens hl hle)]

end

end NestedComment.Scan
