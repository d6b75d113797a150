import NestedComment.Proofs.Foreign.Refinement

/-!
# Where a foreign host says that its input ends

A tape may say that its input has ended although words follow, and its words may be no code points.
Neither is seen by a scan as anything but the end of the input and the replacement character:
`Foreign.scan_cut` says that a scan of such a tape is that of a tape which is cut at the first
position at which the input is said to have ended, and on which every word is a code point.
-/

namespace NestedComment

namespace Foreign

/-- A word, or the replacement character for one that is negative, a surrogate or too great. -/
def mend (w : Int32) : Int32 :=
  if w.toInt < 0 ∨ (0xD800 ≤ w.toInt ∧ w.toInt ≤ 0xDFFF) ∨ 0x10FFFF < w.toInt then 0xFFFD else w

/-- Mending a word does not change the code point it is read as. -/
lemma codePoint_mend (w : Int32) : codePoint (mend w) = codePoint w := by
  rw [mend]
  split
  · next h =>
    have hnone : ¬(0 ≤ w.toInt ∧ w.toInt.toNat.isValidChar) := by
      unfold Nat.isValidChar
      omega
    rw [show codePoint w = Utf8.replacement from if_neg hnone]
    rfl
  · rfl

end Foreign

namespace Tape

/-- The first position at which the input of a tape has ended, or is said to have. -/
def firstStop (input : List Int32) (stops : List Nat) : Nat := stops.min?.getD input.length

/-- The words before the first stop, each of them a code point. -/
def cut (input : List Int32) (stops : List Nat) : List Int32 :=
  (input.take (firstStop input stops)).map Foreign.mend

/-- No position before the first stop is a stop. -/
lemma not_mem_of_lt_firstStop {input : List Int32} {stops : List Nat} {n : Nat}
    (h : n < firstStop input stops) : n ∉ stops := by
  intro hn
  rw [firstStop] at h
  cases hmin : stops.min? with
  | none =>
    rw [List.min?_eq_none_iff.1 hmin] at hn
    cases hn
  | some m =>
    rw [hmin, Option.getD_some] at h
    exact absurd ((List.min?_eq_some_iff.1 hmin).2 n hn) (Nat.not_le.2 h)

/-- The input of a tape has ended at the first stop, or is said to have. -/
lemma firstStop_ends (input : List Int32) (stops : List Nat) :
    input.length ≤ firstStop input stops ∨ firstStop input stops ∈ stops := by
  rw [firstStop]
  cases hmin : stops.min? with
  | none => exact .inl (Nat.le_refl _)
  | some m => exact .inr (List.min?_eq_some_iff.1 hmin).1

end Tape

/-- A tape that has ended at position `n` and a tape on which only mended words before `n` are left,
at the same place and with the same token before it. -/
structure Truncates (n : Nat) (t u : Tape) : Prop where
  position : u.position = t.position
  tokenStart : u.tokenStart = t.tokenStart
  tokenEnd : u.tokenEnd = t.tokenEnd
  result : u.result = t.result
  position_le : t.position ≤ n
  goes_on : ∀ m < n, m ∉ t.stops
  ends : t.position + t.rest.length ≤ n ∨ n ∈ t.stops
  stops : u.stops = []
  words : u.rest = (t.rest.take (n - t.position)).map Foreign.mend

/-- A tape and the mended words before its first stop start at the same place. -/
lemma truncates_start (input : List Int32) (stops : List Nat) (beyond beyond' : Int32)
    (initial : UInt16) :
    Truncates (Tape.firstStop input stops) (Tape.start input beyond stops initial)
      (Tape.start (Tape.cut input stops) beyond' [] initial) where
  position := rfl
  tokenStart := rfl
  tokenEnd := rfl
  result := rfl
  position_le := Nat.zero_le _
  goes_on _ hm := Tape.not_mem_of_lt_firstStop hm
  ends := by
    rw [Tape.start, Nat.zero_add]
    exact Tape.firstStop_ends input stops
  stops := rfl
  words := rfl

namespace Truncates

variable {n : Nat} {t u : Tape} {w : Int32} {ws : List Int32}

/-- At position `n` both have ended. -/
lemma eof_of_eq (both : Truncates n t u) (h : t.position = n) :
    t.eof = true ∧ u.eof = true := by
  refine ⟨?_, ?_⟩
  · rw [Tape.eof, Bool.or_eq_true]
    cases both.ends with
    | inl hlength =>
      have hrest : t.rest.length = 0 := by omega
      exact .inl (List.isEmpty_iff.2 (List.eq_nil_of_length_eq_zero hrest))
    | inr hstop =>
      rw [h]
      exact .inr (List.contains_iff_mem.2 hstop)
  · rw [Tape.eof, both.words, h, Nat.sub_self]
    rfl

/-- Before position `n` both have ended where no word is left. -/
lemma eof_of_nil (both : Truncates n t u) (h : t.rest = []) : t.eof = true ∧ u.eof = true := by
  rw [Tape.eof, Tape.eof, both.words, h]
  simp

/-- Before position `n` the mended tape has the next word too. -/
lemma words_of_cons (both : Truncates n t u) (hlt : t.position < n) (h : t.rest = w :: ws) :
    u.rest = Foreign.mend w :: (ws.take (n - (t.position + 1))).map Foreign.mend := by
  have htake : n - t.position = n - (t.position + 1) + 1 := by omega
  rw [both.words, h, htake, List.take_succ_cons, List.map_cons]

/-- Before position `n` neither has ended where a word is left. -/
lemma eof_of_cons (both : Truncates n t u) (hlt : t.position < n) (h : t.rest = w :: ws) :
    t.eof = false ∧ u.eof = false := by
  have hgo : t.position ∉ t.stops := both.goes_on t.position hlt
  refine ⟨?_, ?_⟩
  · simp [Tape.eof, h, hgo]
  · simp [Tape.eof, both.words_of_cons hlt h, both.stops]

/-- Both show the same code point. -/
lemma peek_eq (both : Truncates n t u) : Host.peek (Foreign.mk t) = Host.peek (Foreign.mk u) := by
  cases h : t.rest with
  | nil =>
    obtain ⟨ht, hu⟩ := both.eof_of_nil h
    rw [Host.peek_eq_none_iff.2 ht, Host.peek_eq_none_iff.2 hu]
  | cons w ws =>
    by_cases hlt : t.position < n
    · obtain ⟨ht, hu⟩ := both.eof_of_cons hlt h
      have hword : Host.lookahead (Foreign.mk t) = Foreign.codePoint w := by
        show Foreign.codePoint t.lookahead = _
        rw [Tape.lookahead, h]
        rfl
      have hmended : Host.lookahead (Foreign.mk u) = Foreign.codePoint (Foreign.mend w) := by
        show Foreign.codePoint u.lookahead = _
        rw [Tape.lookahead, both.words_of_cons hlt h]
        rfl
      rw [Host.peek_of_not_eof ht, Host.peek_of_not_eof hu, hword, hmended, Foreign.codePoint_mend]
    · obtain ⟨ht, hu⟩ := both.eof_of_eq (Nat.le_antisymm both.position_le (Nat.not_lt.1 hlt))
      rw [Host.peek_eq_none_iff.2 ht, Host.peek_eq_none_iff.2 hu]

/-- A tape that has not ended has a word left and stands before position `n`. -/
lemma exists_cons (both : Truncates n t u) (he : t.eof = false) :
    t.position < n ∧ ∃ w ws, t.rest = w :: ws := by
  refine ⟨?_, ?_⟩
  · apply Nat.lt_of_le_of_ne both.position_le
    intro heq
    rw [(both.eof_of_eq heq).1] at he
    cases he
  · cases h : t.rest with
    | nil =>
      rw [(both.eof_of_nil h).1] at he
      cases he
    | cons w ws => exact ⟨w, ws, rfl⟩

/-- Both move to the same place, where neither has ended. -/
lemma advance (both : Truncates n t u) (skip : Bool) (he : t.eof = false) :
    Truncates n (t.advance skip) (u.advance skip) := by
  obtain ⟨hlt, w, ws, h⟩ := both.exists_cons he
  have hwords := both.words_of_cons hlt h
  have hends := both.ends
  rw [Tape.advance, Tape.advance, hwords, h, both.position]
  refine ⟨rfl, ?_, both.tokenEnd, both.result, hlt, both.goes_on, ?_, both.stops, rfl⟩
  · cases skip with
    | false => exact both.tokenStart
    | true => rfl
  · rw [h, List.length_cons] at hends
    apply hends.imp_left
    intro hle
    show t.position + 1 + ws.length ≤ n
    omega

/-- Both mark the end of the token at the same place. -/
lemma markEnd (both : Truncates n t u) : Truncates n t.markEnd u.markEnd :=
  { both with tokenEnd := congrArg some both.position }

/-- Both name the symbol of the token by the same ordinal. -/
lemma setResult (both : Truncates n t u) (ordinal : UInt16) :
    Truncates n { t with result := ordinal } { u with result := ordinal } :=
  { both with result := rfl }

end Truncates

/-- A scan cannot tell a tape from what is left when it is cut. -/
theorem simulation_truncates (n : Nat) :
    Simulation fun h g : Foreign Tape => Truncates n h.raw g.raw where
  peek both := both.peek_eq
  advance skip _ _ both he := both.advance skip he
  markEnd both := both.markEnd
  setSymbol s _ _ both := both.setResult s.ordinal
  eof_setSymbol _ _ _ _ := rfl

/-- What words a tape serves at or behind its first stop makes no difference to a scan, nor which
words it serves that are no code points. A scan finds a token if that of the tape which is cut at
the first stop does, by the same calls at the same positions, and leaves both tapes at one position,
with one token before it and one ordinal in the slot. -/
theorem Foreign.scan_cut (input : List Int32) (stops : List Nat) (beyond beyond' : Int32)
    (initial : UInt16) (valid : Option (List Bool)) :
    ∃ r s : Recorded (Foreign Tape),
      let tape := Tape.start input beyond stops initial
      let clean := Tape.start (Tape.cut input stops) beyond' [] initial
      let given := Foreign.scan (some (Recorded.start (Foreign.mk tape))) valid
      let expected := Foreign.scan (some (Recorded.start (Foreign.mk clean))) valid
      given.1 = expected.1 ∧ given.2.1 = some r ∧ expected.2.1 = some s ∧
        List.Forall₂ (fun a b => a.action = b.action ∧
          a.before.raw.position = b.before.raw.position) r.calls.toList s.calls.toList ∧
        r.host.raw.result = s.host.raw.result ∧
        r.host.raw.tokenStart = s.host.raw.tokenStart ∧
        r.host.raw.tokenEnd = s.host.raw.tokenEnd ∧
        r.host.raw.position = s.host.raw.position := by
  let left := Recorded.start (Foreign.mk (Tape.start input beyond stops initial))
  let right := Recorded.start (Foreign.mk (Tape.start (Tape.cut input stops) beyond' [] initial))
  have sim := (simulation_truncates (Tape.firstStop input stops)).recorded
  obtain ⟨hverdict, related⟩ := sim.run {} .leading (h := left) (g := right)
    (.start (truncates_start input stops beyond beyond' initial))
  refine ⟨(Scan.scan {} left).2, (Scan.scan {} right).2, ?_⟩
  intro tape clean given expected
  have hgiven : given.1 = (Scan.scan {} left).1.isOk := Scanner.found_scan scanner _ left
  have hexpected : expected.1 = (Scan.scan {} right).1.isOk := Scanner.found_scan scanner _ right
  refine ⟨?_, congrArg some (Scanner.host_scan scanner _ left),
    congrArg some (Scanner.host_scan scanner _ right), ?_, related.host.result.symm,
    related.host.tokenStart.symm, related.host.tokenEnd.symm, related.host.position.symm⟩
  · rw [hgiven, hexpected]
    exact congrArg Except.isOk hverdict
  · apply related.calls.imp
    intro a b hab
    exact ⟨hab.action, hab.before.position.symm⟩

end NestedComment
