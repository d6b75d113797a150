import NestedComment.Proofs.Tree
import NestedComment.Tree.Generate

/-!
# Making a tree comes to an end

`Makes` says what making pieces from a supply of bytes comes to, kind by kind and with no bound on
how far it goes. It always comes to something (`makes_makePieces`), and only to one thing
(`Makes.unique`). A byte that chooses anything but a text is there, and every byte of a text follows
one that is there, so what is written out is no longer than four times the bytes that were used
(`Makes.length_le`).
-/

namespace NestedComment.Tree

/-- What comes of making `count` pieces from a supply: the pieces, and what is left of the supply.
A nested comment is made before the pieces behind it. -/
inductive Makes : Nat → List UInt8 → List Piece → List UInt8 → Prop where
  | done {supply : List UInt8} : Makes 0 supply [] supply
  | text {count kind : Nat} {supply behind text left last : List UInt8} {made : List Piece} :
    choose pieceKinds supply = (kind, behind) → kind < 5 → takeText behind = (text, left) →
    Makes count left made last → Makes (count + 1) supply (.text text :: made) last
  | delimiter {count kind which : Nat} {supply behind left last : List UInt8} {byte : UInt8}
      {made : List Piece} :
    choose pieceKinds supply = (kind, behind) → 5 ≤ kind → kind < 7 →
    choose delimiters.length behind = (which, left) → delimiters[which]? = some byte →
    Makes count left made last → Makes (count + 1) supply (.delimiter byte :: made) last
  | nested {count kind inside : Nat} {supply behind inner left last : List UInt8}
      {pieces made : List Piece} :
    choose pieceKinds supply = (kind, behind) → 7 ≤ kind →
    choose pieceCounts behind = (inside, inner) → Makes inside inner pieces left →
    Makes count left made last → Makes (count + 1) supply (.nested pieces :: made) last

/-- What comes of making a comment from a supply: the comment, and what is left of the supply. -/
def Generates (supply : List UInt8) (t : Tree) (left : List UInt8) : Prop :=
  ∃ count behind, choose pieceCounts supply = (count, behind) ∧ Makes count behind t.pieces left

section

variable {n k count : Nat} {supply rest last last' : List UInt8} {made made' : List Piece}

/-- Making pieces comes to what is computed. -/
theorem makes_makePieces (count : Nat) (supply : List UInt8) :
    Makes count supply (makePieces count supply).1.1 (makePieces count supply).1.2 := by
  fun_induction makePieces count supply with
  | case1 supply => exact .done
  | case2 supply count kind _ hlt text _ made rest h heq ih =>
    rw [heq] at ih
    exact .text rfl hlt rfl ih
  | case3 supply count kind _ hge hlt which _ byte made rest h heq ih =>
    rw [heq] at ih
    exact .delimiter rfl (Nat.le_of_not_lt hge) hlt rfl (List.getElem?_eq_getElem _) ih
  | case4 supply count kind _ _ hge inner _ _ nested left h heq made rest h' heq' ih ih' =>
    rw [heq] at ih
    rw [heq'] at ih'
    exact .nested rfl (Nat.le_of_not_lt hge) rfl ih ih'

/-- Making pieces from the same supply comes to the same pieces. -/
theorem Makes.unique (makes : Makes count supply made last)
    (makes' : Makes count supply made' last') : made = made' ∧ last = last' := by
  induction makes generalizing made' last' with
  | done =>
    cases makes'
    exact ⟨rfl, rfl⟩
  | text hkind hlt htext _ ih =>
    cases makes' with
    | text hkind' _ htext' makes' =>
      cases hkind.symm.trans hkind'
      cases htext.symm.trans htext'
      obtain ⟨rfl, rfl⟩ := ih makes'
      exact ⟨rfl, rfl⟩
    | _ => grind
  | delimiter hkind hge hlt hwhich hbyte _ ih =>
    cases makes' with
    | delimiter hkind' _ _ hwhich' hbyte' makes' =>
      cases hkind.symm.trans hkind'
      cases hwhich.symm.trans hwhich'
      cases hbyte.symm.trans hbyte'
      obtain ⟨rfl, rfl⟩ := ih makes'
      exact ⟨rfl, rfl⟩
    | _ => grind
  | nested hkind hge hinside _ _ ih ih' =>
    cases makes' with
    | nested hkind' _ hinside' inner' makes' =>
      cases hkind.symm.trans hkind'
      cases hinside.symm.trans hinside'
      obtain ⟨rfl, rfl⟩ := ih inner'
      obtain ⟨rfl, rfl⟩ := ih' makes'
      exact ⟨rfl, rfl⟩
    | _ => grind

/-- A comment comes of a supply exactly if it is the one that is computed. -/
lemma generates_iff {t : Tree} : Generates supply t last ↔ generate supply = (t, last) := by
  have computed := makes_makePieces (choose pieceCounts supply).1 (choose pieceCounts supply).2
  constructor
  · rintro ⟨count, behind, hcount, makes⟩
    rw [hcount] at computed
    obtain ⟨hmade, hlast⟩ := computed.unique makes
    rw [generate, hcount]
    exact Prod.ext (congrArg Tree.mk hmade) hlast
  · intro h
    cases h
    exact ⟨_, _, rfl, computed⟩

/-- A choice leaves no more than the supply. -/
lemma length_le_of_choose (h : choose n supply = (k, rest)) : rest.length ≤ supply.length := by
  have hle := length_choose_le n supply
  rwa [h] at hle

/-- A choice other than the first takes a byte that is there. -/
lemma length_lt_of_choose (h : choose n supply = (k, rest)) (hk : 0 < k) :
    rest.length < supply.length := by
  have hlt : (choose n supply).1 ≠ 0 → (choose n supply).2.length < supply.length :=
    length_choose_lt
  rw [h] at hlt
  exact hlt hk.ne'

/-- Every byte of a text follows one of the supply. -/
lemma length_takeText_add_le (supply : List UInt8) :
    (takeText supply).1.length + (takeText supply).2.length ≤ supply.length := by
  fun_induction takeText supply with
  | case1 => exact le_rfl
  | case2 more rest _ => exact (Nat.zero_add _).le.trans (Nat.le_succ _)
  | case3 more _ => exact le_rfl
  | case4 more _ b rest text left hleft ih =>
    rw [hleft] at ih
    simp only [List.length_cons] at *
    omega

/-- Pieces are written out with no more than four bytes for each byte of the supply that was used.
-/
theorem Makes.length_le (makes : Makes count supply made last) :
    (Piece.renderAll made).length + 4 * last.length ≤ 4 * supply.length := by
  induction makes with
  | done => exact (Nat.zero_add _).le
  | @text _ _ _ behind _ _ _ _ hkind _ htext _ ih =>
    have hbehind := length_le_of_choose hkind
    have hleft := length_takeText_add_le behind
    simp only [htext] at hleft
    rw [Piece.renderAll, Piece.render, List.length_append]
    omega
  | delimiter hkind hge _ hwhich _ _ ih =>
    have hbehind := length_lt_of_choose hkind (by omega)
    have hleft := length_le_of_choose hwhich
    rw [Piece.renderAll, Piece.render, List.length_append, List.length_singleton]
    omega
  | @nested _ _ _ _ _ _ _ _ pieces _ hkind hge hinside _ _ ih ih' =>
    have hbehind := length_lt_of_choose hkind (by omega)
    have hinner := length_le_of_choose hinside
    have hlength : (Piece.render (.nested pieces)).length = (Piece.renderAll pieces).length + 4 :=
      length_render ⟨pieces⟩
    rw [Piece.renderAll, List.length_append, hlength]
    omega

end

/-- Every supply of bytes gives a comment, and gives no other. It is written out between an opener
and a closer of its own, and with no more than four bytes for each byte of the supply and four more.
-/
theorem generate_small (supply : List UInt8) :
    ∃ t left, (∀ t' left', Generates supply t' left' ↔ t' = t ∧ left' = left) ∧
      generate supply = (t, left) ∧
      (∃ inner, t.render = 0x28 :: 0x2A :: (inner ++ [0x2A, 0x29])) ∧ 4 ≤ t.render.length ∧
      t.render.length ≤ 4 * (supply.length + 1) := by
  have hgenerate : generate supply = ((generate supply).1, (generate supply).2) := rfl
  obtain ⟨count, behind, hcount, makes⟩ := generates_iff.2 hgenerate
  have hbehind := length_le_of_choose hcount
  have hmade := makes.length_le
  have hlength := length_render (generate supply).1
  refine ⟨_, _, fun t' left' => ?_, hgenerate, ⟨_, rfl⟩, ?_, ?_⟩
  · rw [generates_iff, hgenerate, Prod.mk.injEq, eq_comm, @eq_comm _ left']
  · omega
  · omega

end NestedComment.Tree
