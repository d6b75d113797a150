import NestedComment.Json.Reader
import NestedComment.Json.Value
import NestedComment.Proofs.Decimal.Range
import NestedComment.Proofs.Json.Number

/-!
# Values without parts

Nulls, truth values, natural numbers and plain texts, as they are written (`Leaf.token`) and as the
value they denote (`Leaf.Denotes`). Below `10 ^ 300` every natural number denotes some number
(`Leaf.exists_denotes`). A reader tells a value as what it denotes (`found_of_denotes`), takes one
that fits (`natural_fits`, `boolean_fits`) and refuses any other by its kind (`natural_misfit`,
`boolean_misfit`).
-/

namespace NestedComment.Json

/-- A character that stands for itself in a text between quotes. -/
def Unescaped (c : Char) : Prop :=
  c ≠ '"' ∧ c ≠ '\\' ∧ 0x20 ≤ c.toNat

/-- A text between quotes in which every character stands for itself. -/
def quote (s : List Char) : List Char :=
  '"' :: (s ++ ['"'])

/-- A value without parts. -/
inductive Leaf where
  | null
  | boolean (b : Bool)
  | natural (n : Nat)
  | text (s : List Char)
  deriving DecidableEq

namespace Leaf

/-- A value as it is written. -/
def token : Leaf → List Char
  | null => ['n', 'u', 'l', 'l']
  | boolean true => ['t', 'r', 'u', 'e']
  | boolean false => ['f', 'a', 'l', 's', 'e']
  | natural n => Nat.toDigits 10 n
  | text s => quote s

/-- A number below `10 ^ 300`, a text without escapes, or any other value. -/
def Plain : Leaf → Prop
  | null => True
  | boolean _ => True
  | natural n => n < 10 ^ 300
  | text s => ∀ c ∈ s, Unescaped c

/-- The value that a reader makes of what is written. A natural number from `2 ^ 64` on is read as a
floating-point number, made of the leading digits that stay below and of a power of ten. -/
inductive Denotes : Leaf → Value → Prop where
  | null : Denotes null .null
  | boolean (b : Bool) : Denotes (boolean b) (.boolean b)
  | natural {n : Nat} : n < 2 ^ 64 → Denotes (natural n) (.number (.natural n))
  | floating {n k : Nat} {x : Decimal.Binary64} : 2 ^ 64 ≤ n →
    IsLeast {k | n / 10 ^ k < 2 ^ 64} k →
    Decimal.Binary64.ofDecimal? false (n / 10 ^ k) k = some x →
    Denotes (natural n) (.number (.floating x))
  | text (s : List Char) : Denotes (text s) (.text s)

/-- The numbers up to `2 ^ 64` are plain. -/
lemma plain_natural {n : Nat} (h : n ≤ 2 ^ 64) : (natural n).Plain := by
  have hbelow : n < 10 ^ 20 := by omega
  refine hbelow.trans_le ?_
  gcongr <;> omega

/-- What is written as a number denotes one. -/
lemma Denotes.number {n : Nat} {v : Value} (denotes : (Leaf.natural n).Denotes v) :
    ∃ x, v = .number x := by
  cases denotes <;> exact ⟨_, rfl⟩

/-- What is written denotes one value only. -/
lemma Denotes.unique {l : Leaf} {v w : Value} (hv : l.Denotes v) (hw : l.Denotes w) : v = w := by
  cases hv with
  | null | boolean | text =>
    cases hw
    rfl
  | natural hn =>
    cases hw with
    | natural => rfl
    | floating hge => exact absurd hn (Nat.not_lt.2 hge)
  | floating hge least hx =>
    cases hw with
    | natural hn => exact absurd hn (Nat.not_lt.2 hge)
    | floating _ least' hx' =>
      obtain rfl := least.unique least'
      rw [Option.some.inj (hx.symm.trans hx')]

/-- The digits that fit make no zero: one digit more would not fit. -/
lemma pos_of_isLeast {n k : Nat} (hn : 2 ^ 64 ≤ n) (least : IsLeast {k | n / 10 ^ k < 2 ^ 64} k) :
    0 < n / 10 ^ k := by
  cases k with
  | zero => simpa using Nat.pos_of_ne_zero (by omega)
  | succ k =>
    have hbefore : ¬n / 10 ^ k < 2 ^ 64 := fun h => absurd (least.2 h) (Nat.not_succ_le_self k)
    rw [Nat.pow_succ, ← Nat.div_div_eq_div_mul]
    omega

/-- Every plain value denotes something: a number below `10 ^ 300` is in the range of floating-point
numbers. -/
theorem exists_denotes {l : Leaf} (plain : l.Plain) : ∃ v, l.Denotes v := by
  cases l with
  | null => exact ⟨_, .null⟩
  | boolean b => exact ⟨_, .boolean b⟩
  | text s => exact ⟨_, .text s⟩
  | natural n =>
    rcases Nat.lt_or_ge n (2 ^ 64) with hlt | hge
    · exact ⟨_, .natural hlt⟩
    · have hsome : ∃ k, n / 10 ^ k < 2 ^ 64 := by
        refine ⟨n, ?_⟩
        rw [Nat.div_eq_of_lt (Nat.lt_pow_self (by omega))]
        omega
      obtain ⟨k, least⟩ : ∃ k, IsLeast {k | n / 10 ^ k < 2 ^ 64} k := ⟨_, Nat.isLeast_find hsome⟩
      have hbelow : n / 10 ^ k * 10 ^ k < 10 ^ 300 := (Nat.div_mul_le_self _ _).trans_lt plain
      obtain ⟨x, hx⟩ := Decimal.Magnitude.exists_ofDecimal? (pos_of_isLeast hge least) hbelow
      exact ⟨_, .floating hge least hx⟩

end Leaf

section

variable {c : Char} {cs token s : List Char}

/-- A token that begins with no blank. -/
def Solid (token : List Char) : Prop :=
  ∃ c cs, token = c :: cs ∧ isBlank c = false

/-- A token is solid if its first character is no blank. -/
lemma solid_cons (hc : isBlank c = false) : Solid (c :: cs) :=
  ⟨c, cs, rfl, hc⟩

/-- No blanks are skipped before a solid token. -/
lemma Solid.skipBlanks_append (solid : Solid token) (rest : List Char) :
    skipBlanks (token ++ rest) = token ++ rest := by
  obtain ⟨c, cs, rfl, hc⟩ := solid
  exact List.dropWhile_cons_of_neg (by simp [hc])

/-- A text that needs no escapes is read up to the quote behind it. -/
lemma read_unescaped (plain : ∀ c ∈ s, Unescaped c) (rest : List Char) :
    Text.read (s ++ '"' :: rest) = .ok (s, rest) := by
  induction s with
  | nil => rw [List.nil_append, Text.read]
  | cons c s ih =>
    obtain ⟨hquote, hescape, hcontrol⟩ := plain c List.mem_cons_self
    have hread := ih fun c hc => plain c (List.mem_cons_of_mem _ hc)
    rw [List.cons_append, Text.read, if_neg (Nat.not_lt.2 hcontrol), hread]
    · rfl
    · exact hquote
    · exact hescape

/-- A quoted text that needs no escapes is read back. -/
lemma quoted_quote (plain : ∀ c ∈ s, Unescaped c) (rest : List Char) :
    quoted (quote s ++ rest) = .ok (s, rest) := by
  have hread := read_unescaped plain rest
  rw [quote, List.cons_append, List.append_assoc, List.singleton_append]
  exact bind_eq_ok.2 ⟨_, rfl, hread⟩

end

section

variable {α : Type} {expected : String} {text rest : List Char} {l : Leaf} {v : Value} {n : Nat}

/-- The first character of a value is no blank, and tells nulls and truth values from others. -/
lemma Leaf.token_eq_cons (l : Leaf) : ∃ c cs, l.token = c :: cs ∧ isBlank c = false ∧
    (c = 'n' ↔ l = null) ∧ (c = 't' ∨ c = 'f' ↔ ∃ b, l = boolean b) := by
  cases l with
  | null => exact ⟨_, _, rfl, rfl, by simp, by simp⟩
  | boolean b => cases b <;> exact ⟨_, _, rfl, rfl, by simp, by simp⟩
  | natural n =>
    obtain ⟨d, ds, hds, hd⟩ := Number.toDigits_head n
    have hne : ∀ c, c.isDigit = false → d ≠ c := fun c => Number.ne_of_isDigit hd
    exact ⟨d, ds, hds, by simp [isBlank, hne], by simp [hne], by simp [hne]⟩
  | text s => exact ⟨_, _, rfl, rfl, by simp, by simp⟩

/-- No value begins with a blank. -/
lemma Leaf.solid_token (l : Leaf) : Solid l.token := by
  obtain ⟨c, cs, htoken, hc, -⟩ := l.token_eq_cons
  exact ⟨c, cs, htoken, hc⟩

/-- What is written as a number is read as what it denotes. -/
lemma read_token {x : Number} (ends : Number.Ends rest)
    (denotes : (Leaf.natural n).Denotes (.number x)) :
    ∃ d ds, (Leaf.natural n).token ++ rest = d :: ds ∧ d.isDigit = true ∧
      Number.read (d :: ds) = .ok (x, rest) := by
  have hread : Number.read ((Leaf.natural n).token ++ rest) = .ok (x, rest) := by
    cases denotes with
    | natural hn => exact Number.read_natural ends (Number.le_maxNatural_iff.2 hn)
    | floating hn least hx =>
      simp only [← Number.le_maxNatural_iff] at least
      exact Number.read_floating ends (Nat.lt_of_succ_le hn) least hx
  obtain ⟨d, ds, hds, hd⟩ := Number.toDigits_head n
  rw [Leaf.token, hds, List.cons_append] at hread ⊢
  exact ⟨d, ds ++ rest, rfl, hd, hread⟩

/-- A value that begins with a digit is told as the number that is read. -/
lemma found_digit {d : Char} {ds : List Char} {x : Number} (hd : d.isDigit = true)
    (hx : Number.read (d :: ds) = .ok (x, rest)) : found (d :: ds) = .ok (.number x, rest) := by
  rw [found, if_neg (Number.ne_of_isDigit hd rfl), if_neg (Number.ne_of_isDigit hd rfl),
    if_neg (Number.ne_of_isDigit hd rfl), if_pos (.inr hd)]
  exact bind_eq_ok.2 ⟨_, hx, rfl⟩

/-- A value is told as what it denotes. -/
lemma found_of_denotes (ends : Number.Ends rest) (plain : l.Plain) (denotes : l.Denotes v) :
    found (l.token ++ rest) = .ok (v.found, rest) := by
  cases l with
  | null =>
    cases denotes
    rfl
  | boolean b =>
    cases denotes
    cases b <;> rfl
  | natural n =>
    obtain ⟨x, rfl⟩ := denotes.number
    obtain ⟨d, ds, htoken, hd, hread⟩ := read_token ends denotes
    rw [htoken]
    exact found_digit hd hread
  | text s =>
    cases denotes
    rw [Leaf.token, quote, List.cons_append, List.append_assoc, List.singleton_append]
    exact bind_eq_ok.2 ⟨_, read_unescaped plain rest, rfl⟩

/-- A misplaced value is reported as what it denotes. -/
lemma misplaced_of_denotes (ends : Number.Ends rest) (plain : l.Plain) (denotes : l.Denotes v) :
    (misplaced expected (l.token ++ rest) : Except Fault α) =
      .error (.unfit (.wrongKind v.found expected)) := by
  rw [misplaced, found_of_denotes ends plain denotes]
  rfl

/-- A null is read as no value. -/
lemma nullOr_null {read : List Char → Except Fault (α × List Char)}
    (hskip : skipBlanks text = Leaf.null.token ++ rest) : nullOr read text = .ok (none, rest) := by
  rw [nullOr, hskip]
  rfl

/-- What is written as anything but a null is read as a value. -/
lemma nullOr_of_ne {read : List Char → Except Fault (α × List Char)} (hl : l ≠ .null)
    (hskip : skipBlanks text = l.token ++ rest) :
    nullOr read text = (read (l.token ++ rest)).map fun r => (some r.1, r.2) := by
  obtain ⟨c, cs, htoken, -, hc, -⟩ := l.token_eq_cons
  rw [nullOr, hskip, htoken, List.cons_append]
  split
  · next heq => exact absurd (hc.1 (List.cons.inj heq).1) hl
  · rfl

/-- A natural number below `2 ^ 64` is read where one is expected. -/
lemma natural_fits (ends : Number.Ends rest) (hn : n < 2 ^ 64) :
    natural expected ((Leaf.natural n).token ++ rest) = .ok (n, rest) := by
  have solid := (Leaf.natural n).solid_token
  obtain ⟨d, ds, htoken, hd, hread⟩ := read_token ends (.natural hn)
  rw [natural, solid.skipBlanks_append, htoken]
  refine (if_pos (.inr hd)).trans ?_
  exact bind_eq_ok.2 ⟨_, hread, rfl⟩

/-- Where a natural number is expected, any other value is reported. -/
lemma natural_misfit (ends : Number.Ends rest) (plain : l.Plain) (denotes : l.Denotes v)
    (hv : ∀ n, v ≠ .number (.natural n)) :
    natural expected (l.token ++ rest) = .error (.unfit (.wrongKind v.found expected)) := by
  have hmisplaced : (misplaced expected (l.token ++ rest) : Except Fault (Nat × List Char)) =
      .error (.unfit (.wrongKind v.found expected)) :=
    misplaced_of_denotes ends plain denotes
  -- A number has to be read before it is refused, any other value is refused by its first character.
  cases denotes with
  | null => exact hmisplaced
  | boolean b => cases b <;> exact hmisplaced
  | natural => exact absurd rfl (hv _)
  | text s => exact hmisplaced
  | @floating n _ _ hge least hx =>
    have solid := (Leaf.natural n).solid_token
    obtain ⟨d, ds, htoken, hd, hread⟩ := read_token ends (.floating hge least hx)
    rw [natural, solid.skipBlanks_append, htoken]
    refine (if_pos (.inr hd)).trans ?_
    rw [hread]
    rfl

/-- A truth value is read where one is expected. -/
lemma boolean_fits {b : Bool} (hskip : skipBlanks text = (Leaf.boolean b).token ++ rest) :
    boolean expected text = .ok (b, rest) := by
  rw [boolean, hskip]
  cases b <;> rfl

/-- Where a truth value is expected, any other value is reported. -/
lemma boolean_misfit (ends : Number.Ends rest) (plain : l.Plain) (denotes : l.Denotes v)
    (hl : ∀ b, l ≠ .boolean b) (hskip : skipBlanks text = l.token ++ rest) :
    boolean expected text = .error (.unfit (.wrongKind v.found expected)) := by
  rw [← misplaced_of_denotes ends plain denotes]
  obtain ⟨c, cs, htoken, -, -, hc⟩ := l.token_eq_cons
  rw [boolean, hskip, htoken, List.cons_append]
  split
  · next heq =>
    obtain ⟨b, rfl⟩ := hc.1 (.inl (List.cons.inj heq).1)
    exact absurd rfl (hl b)
  · next heq =>
    obtain ⟨b, rfl⟩ := hc.1 (.inr (List.cons.inj heq).1)
    exact absurd rfl (hl b)
  · rfl

end

end NestedComment.Json
