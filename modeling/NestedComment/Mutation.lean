import NestedComment.Tree.Generate

/-!
# Mutation of test data

Fresh data for a check: a byte of options, then blanks and comments by turns until there are as many
bytes as asked for or as the buffer may hold. All choices come from a sequence of draws, and a draw
carries its bound. Every write is checked against the bounds of the buffer, every part of a text
against the end of the text, and every difference of sizes against zero.
-/

namespace NestedComment.Mutation

/-- What can go wrong in a buffer. -/
inductive Fault where
  /-- A place outside the buffer was to be used. -/
  | outsideBuffer
  /-- More of a text was to be used than there is. -/
  | outsideText
  /-- More bytes were filled than allowed. -/
  | pastLimit
  deriving DecidableEq

/-- A sequence of draws, some of which have been used. -/
structure Draws where
  source : Nat → Nat
  used : Nat := 0

/-- Draws a number below `n`. -/
def Draws.below (n : Nat) (hn : 0 < n) (d : Draws) : Fin n × Draws :=
  (⟨d.source d.used % n, Nat.mod_lt _ hn⟩, { d with used := d.used + 1 })

/-- Draws a byte. -/
def Draws.byte (d : Draws) : UInt8 × Draws :=
  let (b, d) := d.below UInt8.size (by decide)
  (UInt8.ofFin b, d)

/-- Draws some bytes. -/
def Draws.bytes : Nat → Draws → List UInt8 × Draws
  | 0, d => ([], d)
  | count + 1, d =>
    let (b, d) := d.byte
    let (bs, d) := Draws.bytes count d
    (b :: bs, d)

/-- The blanks that are drawn from. -/
def blankTable : List Char :=
  [' ', '\t', '\n', '\r', '\u00A0', '\u1680', '\u2000', '\u2007', '\u200A', '\u2028', '\u2029',
   '\u202F', '\u205F', '\u3000']

/-- The most blanks in a row. -/
def maxBlanks : Nat := 8

/-- Draws `count` blanks, and stops before one that does not fit the room. -/
def blanks (count room : Nat) (d : Draws) : List UInt8 × Draws :=
  match count with
  | 0 => ([], d)
  | count + 1 =>
    let (i, d) := d.below blankTable.length (by decide)
    let blank := String.utf8EncodeChar (blankTable.get i)
    if room < blank.length then ([], d)
    else
      let (more, d) := blanks count (room - blank.length) d
      (blank ++ more, d)

/-- The first `count` bytes of a text. -/
def cut (text : List UInt8) (count : Nat) : Except Fault (List UInt8) :=
  if count ≤ text.length then .ok (text.take count) else .error .outsideText

/-- Draws a comment, and cuts it to the room. The comment is made of fewer than twice `size` bytes,
and at least one. Making a tree never fails, so the first supply that is drawn is used and none is
drawn again. Twice a size no greater than a buffer fits a word, so the doubling is exact. -/
def comment (size room : Nat) (d : Draws) : Except Fault (List UInt8 × Draws) := do
  let (extra, d) := d.below (max (size * 2) 2 - 1) (by omega)
  let (supply, d) := d.bytes (1 + extra)
  let text := (Tree.generate supply).1.render
  let bytes ← cut text (min text.length room)
  .ok (bytes, d)

/-- A buffer whose first `filled` bytes are done. -/
structure State where
  buffer : List UInt8
  filled : Nat
  draws : Draws

/-- The room after the bytes that are done. -/
def State.room (maxSize : Nat) (s : State) : Except Fault Nat :=
  if s.buffer.length < s.filled then .error .outsideBuffer
  else if maxSize < s.filled then .error .pastLimit
  else .ok (maxSize - s.filled)

/-- Writes bytes into a buffer from an offset on. -/
def write (buffer : List UInt8) (offset : Nat) (bytes : List UInt8) : Except Fault (List UInt8) :=
  if offset + bytes.length ≤ buffer.length then
    .ok (buffer.take offset ++ bytes ++ buffer.drop (offset + bytes.length))
  else .error .outsideBuffer

/-- Adds bytes to those that are done, drawn for the room that is left. -/
def State.add (make : Nat → Draws → Except Fault (List UInt8 × Draws)) (maxSize : Nat) (s : State) :
    Except Fault State := do
  let room ← s.room maxSize
  let (bytes, draws) ← make room s.draws
  let buffer ← write s.buffer s.filled bytes
  .ok { buffer, filled := s.filled + bytes.length, draws }

/-- Adds blanks and a comment. -/
def State.addRound (size maxSize : Nat) (s : State) : Except Fault State := do
  let (count, draws) := s.draws.below (maxBlanks + 1) (by decide)
  let s ← State.add (fun room d => .ok (blanks count room d)) maxSize { s with draws }
  State.add (comment size) maxSize s

/-- What is written out has its opener and its closer at least. -/
theorem length_render_pos (t : Tree) : 0 < t.render.length := by
  simp [Tree.render, Piece.render]

/-- Cutting a text off inside it succeeds. -/
theorem cut_of_le {text : List UInt8} {count : Nat} (h : count ≤ text.length) :
    cut text count = .ok (text.take count) :=
  if_pos h

/-- A comment is drawn whatever the room is. It fits the room, and is not empty if the room is not.
-/
theorem exists_comment (size room : Nat) (d : Draws) :
    ∃ bytes d', comment size room d = .ok (bytes, d') ∧ bytes.length ≤ room ∧
      (0 < room → 0 < bytes.length) := by
  unfold comment
  simp only [cut_of_le (Nat.min_le_left _ _), bind, Except.bind]
  refine ⟨_, _, rfl, ?_, fun hroom => ?_⟩
  · simp only [List.length_take]
    omega
  · simp only [List.length_take, Nat.lt_min]
    exact ⟨⟨length_render_pos _, hroom⟩, length_render_pos _⟩

/-- There is room only if no more bytes are done than allowed. -/
theorem State.room_of_ok {maxSize room : Nat} {s : State} (h : s.room maxSize = .ok room) :
    s.filled ≤ maxSize ∧ room = maxSize - s.filled := by
  unfold State.room at h
  split at h
  · cases h
  · split at h
    · cases h
    · next hle => cases h; exact ⟨Nat.le_of_not_lt hle, rfl⟩

/-- Adding succeeds only if bytes were drawn for the room that was left. As many more are done. -/
theorem State.filled_of_add {make : Nat → Draws → Except Fault (List UInt8 × Draws)}
    {maxSize : Nat} {s t : State} (h : s.add make maxSize = .ok t) :
    s.filled ≤ maxSize ∧ ∃ bytes d, make (maxSize - s.filled) s.draws = .ok (bytes, d) ∧
      t.filled = s.filled + bytes.length := by
  unfold State.add at h
  cases hroom : s.room maxSize with
  | error fault => simp only [bind, Except.bind, hroom] at h; cases h
  | ok room =>
    obtain ⟨hle, rfl⟩ := room_of_ok hroom
    refine ⟨hle, ?_⟩
    cases hmade : make (maxSize - s.filled) s.draws with
    | error fault => simp only [bind, Except.bind, hroom, hmade] at h; cases h
    | ok made =>
      cases hwrite : write s.buffer s.filled made.1 with
      | error fault => simp only [bind, Except.bind, hroom, hmade, hwrite] at h; cases h
      | ok buffer =>
        simp only [bind, Except.bind, hroom, hmade, hwrite] at h
        cases h
        exact ⟨made.1, made.2, rfl, rfl⟩

/-- A round adds at least one byte, if there is room for one. -/
theorem State.filled_lt_of_addRound {size maxSize : Nat} {s t : State}
    (hs : s.filled < maxSize) (h : s.addRound size maxSize = .ok t) : s.filled < t.filled := by
  unfold State.addRound at h
  simp only [bind, Except.bind] at h
  split at h
  · cases h
  · next u hu =>
    obtain ⟨-, blank, -, -, hu⟩ := filled_of_add hu
    obtain ⟨hle, bytes, d, hmade, ht⟩ := filled_of_add h
    simp only at hu
    by_cases hroom : u.filled < maxSize
    · obtain ⟨bytes', d', hmade', -, hpos⟩ := exists_comment size (maxSize - u.filled) u.draws
      rw [hmade'] at hmade
      cases hmade
      have := hpos (Nat.sub_pos_of_lt hroom)
      omega
    · omega

/-- Adds rounds until `size` bytes are done, and at least two, or the buffer may hold no more. -/
def State.fill (size maxSize : Nat) (s : State) : Except Fault State :=
  if _h : s.filled < max size 2 ∧ s.filled < maxSize then
    match _hr : s.addRound size maxSize with
    | .ok t => t.fill size maxSize
    | .error e => .error e
  else .ok s
termination_by maxSize - s.filled
decreasing_by have := State.filled_lt_of_addRound _h.2 _hr; omega

/-- What became of a buffer. -/
inductive Outcome where
  /-- The host is to change the buffer in its own way. -/
  | handedOver
  /-- The first `size` bytes of the buffer are fresh data. -/
  | fresh (buffer : List UInt8) (size : Nat)

/-- Mutates a buffer whose first `size` bytes are data and which may hold `maxSize`. One seed of
ten, and every seed if there are no data, makes fresh data. -/
def mutate (draws : Draws) (buffer : List UInt8) (size maxSize : Nat) (seed : UInt32) :
    Except Fault Outcome := do
  if size < 1 ∨ seed.toNat % 10 = 0 then
    let (flags, draws) := draws.byte
    let buffer ← write buffer 0 [flags]
    let s ← State.fill size maxSize { buffer, filled := 1, draws }
    .ok (.fresh s.buffer s.filled)
  else .ok .handedOver

end NestedComment.Mutation
