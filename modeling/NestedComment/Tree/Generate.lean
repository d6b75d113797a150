import NestedComment.Tree.Basic

/-!
# Trees from bytes

Bytes decide what a comment is made of: how many pieces, of which kinds, and with which texts. A
byte that is missing counts as zero, so every supply of bytes gives a comment. A nested comment
takes at least one byte of the supply, which is why the generator comes to an end.
-/

namespace NestedComment.Tree

/-- Takes a byte of the supply to choose a number below `n`. -/
def choose (n : Nat) : List UInt8 → Nat × List UInt8
  | [] => (0, [])
  | b :: rest => (b.toNat % n, rest)

/-- Takes a text of the supply. An odd byte before each byte of the text says that the text goes on.
-/
def takeText : List UInt8 → List UInt8 × List UInt8
  | [] => ([], [])
  | more :: rest =>
    if more.toNat % 2 = 0 then ([], rest)
    else match rest with
      | [] => ([0], [])
      | b :: rest =>
        let (text, rest) := takeText rest
        (b :: text, rest)

/-- A choice is below its bound. -/
theorem choose_lt {n : Nat} (hn : 0 < n) (supply : List UInt8) : (choose n supply).1 < n := by
  cases supply with
  | nil => exact hn
  | cons b _ => exact Nat.mod_lt _ hn

/-- A choice takes nothing but bytes of the supply. -/
theorem length_choose_le (n : Nat) (supply : List UInt8) :
    (choose n supply).2.length ≤ supply.length := by
  cases supply <;> simp [choose]

/-- A choice other than the first takes a byte. -/
theorem length_choose_lt {n : Nat} {supply : List UInt8} (h : (choose n supply).1 ≠ 0) :
    (choose n supply).2.length < supply.length := by
  cases supply <;> simp_all [choose]

/-- A text takes nothing but bytes of the supply. -/
theorem length_takeText_le (supply : List UInt8) :
    (takeText supply).2.length ≤ supply.length := by
  fun_induction takeText supply with
  | case1 => exact Nat.le_refl _
  | case2 more rest _ => exact Nat.le_succ _
  | case3 more _ => exact Nat.zero_le _
  | case4 more _ b rest text left hleft ih =>
    rw [hleft] at ih
    simp only [List.length_cons] at *
    omega

/-- The most pieces of a comment, and one more. -/
def pieceCounts : Nat := 6

/-- The number of ways to choose the kind of a piece: five for a text, two for a delimiter, and the
others for a nested comment. -/
def pieceKinds : Nat := 10

/-- The bytes that a delimiter is chosen from. -/
def delimiters : List UInt8 := [0x28, 0x2A, 0x29]

/-- Makes `count` pieces from the supply, and leaves the rest of it. -/
def makePieces (count : Nat) (supply : List UInt8) :
    { made : List Piece × List UInt8 // made.2.length ≤ supply.length } :=
  match count with
  | 0 => ⟨([], supply), Nat.le_refl _⟩
  | count + 1 =>
    let kind := choose pieceKinds supply
    have hkind := length_choose_le pieceKinds supply
    if kind.1 < 5 then
      let text := takeText kind.2
      have htext := length_takeText_le kind.2
      let ⟨(made, rest), h⟩ := makePieces count text.2
      ⟨(.text text.1 :: made, rest), Nat.le_trans h (Nat.le_trans htext hkind)⟩
    else if hnested : kind.1 < 7 then
      let which := choose delimiters.length kind.2
      have hwhich := length_choose_le delimiters.length kind.2
      let byte := delimiters.get ⟨which.1, choose_lt (by decide) kind.2⟩
      let ⟨(made, rest), h⟩ := makePieces count which.2
      ⟨(.delimiter byte :: made, rest), Nat.le_trans h (Nat.le_trans hwhich hkind)⟩
    else
      let inner := choose pieceCounts kind.2
      have hinner := length_choose_le pieceCounts kind.2
      have hlt : kind.2.length < supply.length :=
        length_choose_lt fun h => hnested (by rw [show kind.1 = 0 from h]; decide)
      let ⟨(nested, left), hleft⟩ := makePieces inner.1 inner.2
      let ⟨(made, rest), h⟩ := makePieces count left
      ⟨(.nested nested :: made, rest),
        Nat.le_trans h (Nat.le_trans hleft (Nat.le_trans hinner hkind))⟩
termination_by (supply.length, count)
decreasing_by
  · exact Prod.Lex.right' _ (Nat.le_trans htext hkind) (Nat.lt_succ_self _)
  · exact Prod.Lex.right' _ (Nat.le_trans hwhich hkind) (Nat.lt_succ_self _)
  · exact Prod.Lex.left _ _ (Nat.lt_of_le_of_lt hinner hlt)
  · exact Prod.Lex.left _ _ (Nat.lt_of_le_of_lt (Nat.le_trans hleft hinner) hlt)

/-- The comment that a supply of bytes gives, and what is left of the supply. -/
def generate (supply : List UInt8) : Tree × List UInt8 :=
  let (count, rest) := choose pieceCounts supply
  let ⟨(made, left), _⟩ := makePieces count rest
  (⟨made⟩, left)

end NestedComment.Tree
