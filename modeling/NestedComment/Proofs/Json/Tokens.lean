import NestedComment.Proofs.Json.Leaf

/-!
# Objects as they are written

An object whose members are nulls, truth values, natural numbers and plain texts is written as a
list of tokens, with blanks wherever one likes (`Spaced`). The readers of a document go from token
to token: a mark (`Spaced.mark`), the name of a member or the end of the object
(`Spaced.memberName_cons`, `Spaced.memberName_nil`), and a value (`Spaced.value`).
-/

namespace NestedComment.Json

/-- A text of blanks. -/
def Blank (cs : List Char) : Prop :=
  ∀ c ∈ cs, isBlank c = true

/-- Tokens one behind the other, with any blanks before each of them and behind the last. -/
inductive Spaced : List (List Char) → List Char → Prop where
  | nil {blanks : List Char} : Blank blanks → Spaced [] blanks
  | cons {blanks token : List Char} {tokens : List (List Char)} {text : List Char} :
    Blank blanks → Spaced tokens text → Spaced (token :: tokens) (blanks ++ (token ++ text))

/-- A member of an object. -/
structure Entry where
  name : List Char
  value : Leaf
  deriving DecidableEq

namespace Entry

/-- The name needs no escapes and the value is a plain one. -/
structure Plain (m : Entry) : Prop where
  name : ∀ c ∈ m.name, Unescaped c
  value : m.value.Plain

/-- A reader makes a value under the name of the member. -/
structure Denotes (m : Entry) (p : List Char × Value) : Prop where
  name : p.1 = m.name
  value : m.value.Denotes p.2

/-- The tokens of some members up to the end of their object. A member that is not the first follows
a comma. -/
def tokens (first : Bool) : List Entry → List (List Char)
  | [] => [['\x7d']]
  | m :: ms => (if first then [] else [[',']]) ++ quote m.name :: [':'] :: m.value.token ::
    tokens false ms

/-- The tokens of an object. -/
def object (ms : List Entry) : List (List Char) :=
  ['\x7b'] :: tokens true ms

end Entry

section

variable {c : Char} {cs rest text token s : List Char} {toks : List (List Char)}

/-- The empty text is one of blanks. -/
lemma blank_nil : Blank [] :=
  fun _ hc => absurd hc List.not_mem_nil

/-- Blanks behind blanks are blanks. -/
lemma blank_append (hcs : Blank cs) (hrest : Blank rest) : Blank (cs ++ rest) := by
  intro c hc
  exact (List.mem_append.1 hc).elim (hcs c) (hrest c)

/-- Skipping blanks skips those at the front of a text. -/
lemma skipBlanks_append (blank : Blank cs) (rest : List Char) :
    skipBlanks (cs ++ rest) = skipBlanks rest :=
  List.dropWhile_append_of_pos blank

/-- Nothing is left of blanks when they are skipped. -/
lemma skipBlanks_of_blank (blank : Blank cs) : skipBlanks cs = [] := by
  have h := skipBlanks_append blank []
  rwa [List.append_nil] at h

/-- More blanks may stand before the first token. -/
lemma Spaced.append_left (blank : Blank cs) (spaced : Spaced toks text) :
    Spaced toks (cs ++ text) := by
  cases spaced with
  | nil hblanks => exact .nil (blank_append blank hblanks)
  | cons hblanks spaced =>
    rw [← List.append_assoc]
    exact .cons (blank_append blank hblanks) spaced

/-- Tokens with no blanks between them. -/
lemma spaced_flatten (blank : Blank cs) (toks : List (List Char)) :
    Spaced toks (toks.flatten ++ cs) := by
  induction toks with
  | nil => exact .nil blank
  | cons token toks ih =>
    rw [List.flatten_cons, List.append_assoc]
    exact .cons blank_nil ih

/-- Behind blanks stands the next token. -/
lemma Spaced.skip (spaced : Spaced (token :: toks) text) (solid : Solid token) :
    ∃ rest, skipBlanks text = token ++ rest ∧ Spaced toks rest := by
  cases spaced with
  | @cons blanks _ _ rest blank spaced =>
    refine ⟨rest, ?_, spaced⟩
    rw [skipBlanks_append blank, solid.skipBlanks_append]

/-- A mark is read behind blanks. -/
lemma Spaced.mark (spaced : Spaced ([c] :: toks) text) (hc : isBlank c = false) :
    ∃ rest, mark c text = .ok rest ∧ Spaced toks rest := by
  obtain ⟨rest, hskip, spaced⟩ := spaced.skip (solid_cons hc)
  refine ⟨rest, ?_, spaced⟩
  rw [Json.mark, hskip]
  exact if_pos rfl

/-- Behind the last token nothing but blanks is left. -/
lemma Spaced.finish {α : Type} (spaced : Spaced [] text) (a : α) : finish a text = .ok a := by
  cases spaced with
  | nil blank =>
    rw [Json.finish, skipBlanks_of_blank blank]
    rfl

/-- A quoted text is read behind blanks. -/
lemma Spaced.quoted (spaced : Spaced (quote s :: toks) text) (plain : ∀ c ∈ s, Unescaped c) :
    ∃ rest, quoted text = .ok (s, rest) ∧ Spaced toks rest := by
  have solid : Solid (quote s) := solid_cons rfl
  obtain ⟨rest, hskip, spaced⟩ := spaced.skip solid
  refine ⟨rest, ?_, spaced⟩
  rw [← quoted_quote plain rest, Json.quoted, Json.quoted, Json.mark, Json.mark, hskip,
    solid.skipBlanks_append]

end

section

variable {text : List Char} {l : Leaf} {ms : List Entry} {m : Entry} {first : Bool}

/-- No member is found at the end of an object. -/
lemma Spaced.memberName_nil (spaced : Spaced (Entry.tokens first []) text) :
    ∃ rest, memberName first text = .ok (none, rest) ∧ Spaced [] rest := by
  obtain ⟨rest, hskip, spaced⟩ := Spaced.skip spaced (solid_cons rfl)
  refine ⟨rest, ?_, spaced⟩
  rw [memberName, hskip]
  rfl

/-- The name of the next member is found, behind a comma if it is not the first. -/
lemma Spaced.memberName_cons (spaced : Spaced (Entry.tokens first (m :: ms)) text)
    (plain : ∀ c ∈ m.name, Unescaped c) :
    ∃ rest, memberName first text = .ok (some m.name, rest) ∧
      Spaced ([':'] :: m.value.token :: Entry.tokens false ms) rest := by
  -- A quote or a comma comes next, so this is not the end of the object.
  cases first with
  | true =>
    obtain ⟨rest, hskip, spaced⟩ := Spaced.skip spaced (solid_cons rfl)
    refine ⟨rest, ?_, spaced⟩
    have hquoted := quoted_quote plain rest
    rw [memberName, hskip]
    exact (if_neg (by decide)).trans (bind_eq_ok.2 ⟨_, rfl, bind_eq_ok.2 ⟨_, hquoted, rfl⟩⟩)
  | false =>
    obtain ⟨behind, hskip, spaced⟩ := Spaced.skip spaced (solid_cons rfl)
    obtain ⟨rest, hquoted, spaced⟩ := Spaced.quoted spaced plain
    refine ⟨rest, ?_, spaced⟩
    rw [memberName, hskip]
    exact (if_neg (by decide)).trans (bind_eq_ok.2 ⟨_, rfl, bind_eq_ok.2 ⟨_, hquoted, rfl⟩⟩)

/-- A blank does not go on with a number. -/
lemma ends_of_isBlank {c : Char} (hc : isBlank c = true) (rest : List Char) :
    Number.Ends (c :: rest) := by
  rintro d ⟨⟩
  simp only [isBlank, Bool.or_eq_true, decide_eq_true_eq] at hc
  obtain ((rfl | rfl) | rfl) | rfl := hc <;> decide

/-- What stands behind the value of a member does not go on with a number. -/
lemma Spaced.ends (spaced : Spaced (Entry.tokens false ms) text) :
    Number.Ends text := by
  obtain ⟨c, toks, htokens, hc⟩ :
      ∃ c toks, Entry.tokens false ms = [c] :: toks ∧ (c = ',' ∨ c = '\x7d') := by
    cases ms with
    | nil => exact ⟨_, _, rfl, .inr rfl⟩
    | cons m ms => exact ⟨_, _, rfl, .inl rfl⟩
  rw [htokens] at spaced
  cases spaced with
  | @cons blanks _ _ rest blank =>
    cases blanks with
    | nil =>
      rintro d ⟨⟩
      obtain rfl | rfl := hc <;> decide
    | cons b blanks => exact ends_of_isBlank (blank b List.mem_cons_self) _

/-- Behind blanks stands the value of a member, and behind the value the other members. -/
lemma Spaced.value (spaced : Spaced (l.token :: Entry.tokens false ms) text) :
    ∃ rest, skipBlanks text = l.token ++ rest ∧ Number.Ends rest ∧
      Spaced (Entry.tokens false ms) rest := by
  obtain ⟨rest, hskip, spaced⟩ := spaced.skip l.solid_token
  exact ⟨rest, hskip, spaced.ends, spaced⟩

end

end NestedComment.Json
