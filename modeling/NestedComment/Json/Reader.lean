import NestedComment.Json.Number

/-!
# Reading a document as a stream

A document is read from left to right, and the first thing that is wrong decides the fault. So a
value of the wrong kind is named only after it has been read, a sequence or a map as soon as it
opens, and a fault further on is never seen. `length_found`, `length_memberName` and
`length_element` say how much of the text a step leaves.
-/

namespace NestedComment.Json

/-- Whether a character may stand between the parts of a document. -/
def isBlank (c : Char) : Bool :=
  c = ' ' || c = '\t' || c = '\n' || c = '\r'

/-- The text from its first character on that is no blank. -/
def skipBlanks (cs : List Char) : List Char :=
  cs.dropWhile isBlank

/-- Reads the letters of a word. -/
def word : List Char → List Char → Except Fault (List Char)
  | [], cs => .ok cs
  | c :: rest, cs => do word rest (← Text.expect c cs)

/-- Reads a mark after blanks. -/
def mark (c : Char) (cs : List Char) : Except Fault (List Char) :=
  Text.expect c (skipBlanks cs)

/-- What is left of a document after its value has to be blank. -/
def finish {α : Type} (a : α) (rest : List Char) : Except Fault α :=
  if (skipBlanks rest).isEmpty then .ok a else .error .malformed

/-- Reads a text after blanks. -/
def quoted (cs : List Char) : Except Fault (List Char × List Char) := do
  Text.read (← mark '"' cs)

/-- Reads a value up to where its kind is known, which for a sequence or a map is its opening
mark. -/
def found : List Char → Except Fault (Found × List Char)
  | [] => .error .truncated
  | c :: rest =>
    if c = 'n' then do .ok (.null, ← word ['u', 'l', 'l'] rest)
    else if c = 't' then do .ok (.boolean true, ← word ['r', 'u', 'e'] rest)
    else if c = 'f' then do .ok (.boolean false, ← word ['a', 'l', 's', 'e'] rest)
    else if c = '-' ∨ c.isDigit then do
      let (n, rest) ← Number.read (c :: rest)
      .ok (.number n, rest)
    else if c = '"' then do
      let (s, rest) ← Text.read rest
      .ok (.text s, rest)
    else if c = '[' then .ok (.sequence, rest)
    else if c = '\x7b' then .ok (.map, rest)
    else .error .malformed

/-- The fault of a value that should have been `expected`. -/
def misplaced {α : Type} (expected : String) (cs : List Char) : Except Fault α := do
  let (f, _) ← found cs
  .error (.unfit (.wrongKind f expected))

/-- Reads a truth value, named `expected` if something else stands there. -/
def boolean (expected : String) (cs : List Char) : Except Fault (Bool × List Char) :=
  match skipBlanks cs with
  | 't' :: rest => do .ok (true, ← word ['r', 'u', 'e'] rest)
  | 'f' :: rest => do .ok (false, ← word ['a', 'l', 's', 'e'] rest)
  | cs => misplaced expected cs

/-- Reads a natural number, named `expected` if something else stands there. -/
def natural (expected : String) (cs : List Char) : Except Fault (Nat × List Char) :=
  match skipBlanks cs with
  | [] => .error .truncated
  | c :: rest =>
    if c = '-' ∨ c.isDigit then do
      match ← Number.read (c :: rest) with
      | (.natural n, rest) => .ok (n, rest)
      | (.negative n, _) => .error (.unfit (.outOfRange (.number (.negative n)) expected))
      | (.floating x, _) => .error (.unfit (.wrongKind (.number (.floating x)) expected))
    else misplaced expected (c :: rest)

/-- Reads a null, or what `read` reads. -/
def nullOr {α : Type} (read : List Char → Except Fault (α × List Char)) (cs : List Char) :
    Except Fault (Option α × List Char) :=
  match skipBlanks cs with
  | 'n' :: rest => do .ok (none, ← word ['u', 'l', 'l'] rest)
  | cs => do
    let (a, rest) ← read cs
    .ok (some a, rest)

/-- Goes to the next part of a sequence or a map; one that is not the first follows a comma. -/
def next (first : Bool) (cs : List Char) : Except Fault (List Char) :=
  if first then .ok cs else mark ',' cs

/-- Reads the name of a member, up to its closing quote. No name is read at the end of the map. -/
def memberName (first : Bool) (cs : List Char) : Except Fault (Option (List Char) × List Char) :=
  match skipBlanks cs with
  | [] => .error .truncated
  | c :: rest =>
    if c = '\x7d' then .ok (none, rest)
    else do
      let (s, rest) ← quoted (← next first (c :: rest))
      .ok (some s, rest)

/-- Finds the next element of a sequence. None is found at the end of the sequence, which is left in
place. -/
def element (first : Bool) (cs : List Char) : Except Fault (Bool × List Char) :=
  match skipBlanks cs with
  | [] => .error .truncated
  | c :: rest =>
    if c = ']' then .ok (false, c :: rest)
    else do
      match skipBlanks (← next first (c :: rest)) with
      | [] => .error .truncated
      | d :: rest => if d = ']' then .error .malformed else .ok (true, d :: rest)

/-- What is left behind blanks is no longer than the text. -/
theorem length_skipBlanks (cs : List Char) : (skipBlanks cs).length ≤ cs.length :=
  (List.dropWhile_suffix isBlank).length_le

/-- What is left behind a word is no longer than the text. -/
theorem length_word {w cs rest : List Char} (h : word w cs = .ok rest) :
    rest.length ≤ cs.length := by
  induction w generalizing cs with
  | nil => cases h; omega
  | cons c w ih =>
    obtain ⟨cs', h1, h⟩ := bind_eq_ok.1 h
    have := Text.length_expect h1
    have := ih h
    omega

/-- What is left behind a mark is shorter than the text. -/
theorem length_mark {c : Char} {cs rest : List Char} (h : mark c cs = .ok rest) :
    rest.length < cs.length := by
  have := Text.length_expect h
  have := length_skipBlanks cs
  omega

/-- What is left behind a text between quotes is shorter than the whole. -/
theorem length_quoted {cs s rest : List Char} (h : quoted cs = .ok (s, rest)) :
    rest.length < cs.length := by
  obtain ⟨_, h1, h⟩ := bind_eq_ok.1 h
  have := length_mark h1
  have := Text.length_read h
  omega

/-- What is left before the next part of a sequence or a map is no longer than the text. -/
theorem length_next {first : Bool} {cs rest : List Char} (h : next first cs = .ok rest) :
    rest.length ≤ cs.length := by
  unfold next at h
  split at h
  · cases h; exact Nat.le_refl _
  · exact Nat.le_of_lt (length_mark h)

/-- Every value has a first character, so what follows it is shorter. -/
theorem length_found {cs rest : List Char} {f : Found} (h : found cs = .ok (f, rest)) :
    rest.length < cs.length := by
  cases cs with
  | nil => cases h
  | cons c cs =>
    have length_rest {w : List Char} {g : Found}
        (h : (do .ok (g, ← word w cs) : Except Fault (Found × List Char)) = .ok (f, rest)) :
        rest.length < (c :: cs).length := by
      obtain ⟨_, h1, h⟩ := bind_eq_ok.1 h
      obtain ⟨-, rfl⟩ := Prod.mk.inj (Except.ok.inj h)
      exact Nat.lt_succ_of_le (length_word h1)
    simp only [found] at h
    split at h
    · exact length_rest h
    · split at h
      · exact length_rest h
      · split at h
        · exact length_rest h
        · split at h
          · obtain ⟨⟨_, _⟩, h1, h⟩ := bind_eq_ok.1 h
            obtain ⟨-, rfl⟩ := Prod.mk.inj (Except.ok.inj h)
            exact Number.length_read h1
          · split at h
            · obtain ⟨⟨_, _⟩, h1, h⟩ := bind_eq_ok.1 h
              obtain ⟨-, rfl⟩ := Prod.mk.inj (Except.ok.inj h)
              exact Nat.lt_succ_of_lt (Text.length_read h1)
            · split at h
              · cases h; simp
              · split at h
                · cases h; simp
                · cases h

/-- A name has quotes and the end of a map has its mark, so what follows them is shorter. -/
theorem length_memberName {first : Bool} {cs rest : List Char} {s : Option (List Char)}
    (h : memberName first cs = .ok (s, rest)) : rest.length < cs.length := by
  have l := length_skipBlanks cs
  unfold memberName at h
  split at h
  · cases h
  · rename_i hc
    rw [hc] at l
    split at h
    · obtain ⟨-, rfl⟩ := Prod.mk.inj (Except.ok.inj h)
      exact l
    · obtain ⟨_, h1, h⟩ := bind_eq_ok.1 h
      obtain ⟨⟨_, _⟩, h2, h⟩ := bind_eq_ok.1 h
      obtain ⟨-, rfl⟩ := Prod.mk.inj (Except.ok.inj h)
      have := length_next h1
      have := length_quoted h2
      omega

/-- The start of an element and the end of a sequence are left in place. -/
theorem length_element {first more : Bool} {cs rest : List Char}
    (h : element first cs = .ok (more, rest)) : rest.length ≤ cs.length := by
  have l := length_skipBlanks cs
  unfold element at h
  split at h
  · cases h
  · rename_i hc
    rw [hc] at l
    split at h
    · obtain ⟨-, rfl⟩ := Prod.mk.inj (Except.ok.inj h)
      exact l
    · obtain ⟨cs', h1, h⟩ := bind_eq_ok.1 h
      have := length_next h1
      have l' := length_skipBlanks cs'
      split at h
      · cases h
      · rename_i hd
        rw [hd] at l'
        split at h
        · cases h
        · obtain ⟨-, rfl⟩ := Prod.mk.inj (Except.ok.inj h)
          omega

end NestedComment.Json
