import NestedComment.Cursor.Basic
import NestedComment.Foreign.Entry
import NestedComment.Foreign.Tape
import NestedComment.Proofs.Scan.Simulation
import NestedComment.Proofs.Utf8.Encode

/-!
# Foreign hosts and cursors in step

A tape that serves the code points of a text as words and a cursor before the encoding of the text
show a scan the same, although one counts words and the other bytes. `Corresponds` says which offset
belongs to which position; every call keeps it (`simulation_corresponds`), so a scan for a foreign
host finds what a scan in memory finds, by the same calls (`Foreign.scan_refines`).
-/

namespace NestedComment

open Scan

namespace Foreign

/-- The word that a code point is. -/
def word (c : Char) : Int32 := Int32.ofNat c.toNat

/-- A word that is a code point is read as that code point. -/
lemma codePoint_word (c : Char) : codePoint (word c) = c := by
  have hvalid : c.toNat.isValidChar := c.valid
  have hlt : c.toNat < 2 ^ 31 := by
    unfold Nat.isValidChar at hvalid
    omega
  have hword : (word c).toInt = c.toNat := Int32.toInt_ofNat_of_lt hlt
  rw [codePoint, hword, Int.toNat_natCast, if_pos, Char.ofNat_toNat]
  exact ⟨Int.natCast_nonneg _, hvalid⟩

end Foreign

/-- A tape and a cursor at the same place of a text, with the same token before it. The slot for the
symbol holds what it held initially until the symbol is named. -/
structure Corresponds (cs : List Char) (initial : UInt16) (t : Tape) (c : Cursor) : Prop where
  position : c.position = Utf8.offset cs t.position
  tokenStart : c.tokenStart = Utf8.offset cs t.tokenStart
  tokenEnd : c.tokenEnd = t.tokenEnd.map (Utf8.offset cs)
  result : t.result = (c.symbol.map Symbol.ordinal).getD initial
  position_le : t.position ≤ cs.length
  tokenStart_le : t.tokenStart ≤ t.position
  tokenEnd_le : ∀ n ∈ t.tokenEnd, n ≤ t.position
  stops : t.stops = []
  words : t.rest = (cs.drop t.position).map Foreign.word
  bytes : c.rest = Utf8.encode (cs.drop t.position)

section

variable {cs ds : List Char} {initial : UInt16} {t : Tape} {c : Cursor} {d : Char}

/-- A tape and a cursor start at the same place of a text. -/
lemma corresponds_start (cs : List Char) (beyond : Int32) (initial : UInt16) :
    Corresponds cs initial (Tape.start (cs.map Foreign.word) beyond [] initial)
      (Cursor.ofInput (Utf8.encode cs)) where
  position := by simp [Cursor.ofInput, Cursor.atOffset, Tape.start, Utf8.offset, Utf8.encode]
  tokenStart := by simp [Cursor.ofInput, Cursor.atOffset, Tape.start, Utf8.offset, Utf8.encode]
  tokenEnd := rfl
  result := rfl
  position_le := Nat.zero_le _
  tokenStart_le := Nat.le_refl _
  tokenEnd_le := nofun
  stops := rfl
  words := rfl
  bytes := by simp [Cursor.ofInput, Cursor.atOffset, Tape.start]

namespace Corresponds

/-- Both have ended where the text has. -/
lemma eof_of_nil (both : Corresponds cs initial t c) (h : cs.drop t.position = []) :
    t.eof = true ∧ c.rest.isEmpty = true := by
  rw [Tape.eof, both.words, both.bytes, h]
  exact ⟨rfl, rfl⟩

/-- Neither has ended where the text goes on. -/
lemma eof_of_cons (both : Corresponds cs initial t c) (h : cs.drop t.position = d :: ds) :
    t.eof = false ∧ c.rest.isEmpty = false := by
  rw [Tape.eof, both.words, both.bytes, both.stops, h]
  refine ⟨rfl, ?_⟩
  rw [List.isEmpty_eq_false_iff]
  exact Utf8.encode_cons_ne_nil

/-- The cursor reads the next code point of the text. -/
lemma ahead_eq (both : Corresponds cs initial t c) (h : cs.drop t.position = d :: ds) :
    c.ahead = ⟨d, d.utf8Size⟩ := by
  rw [Cursor.ahead, both.bytes, h]
  exact Utf8.decode_encode_cons

/-- Both show the code point of the text. -/
lemma peek_eq (both : Corresponds cs initial t c) :
    Host.peek (Foreign.mk t) = Host.peek c := by
  cases h : cs.drop t.position with
  | nil =>
    obtain ⟨ht, hc⟩ := both.eof_of_nil h
    rw [Host.peek_eq_none_iff.2 ht, Host.peek_eq_none_iff.2 hc]
  | cons d ds =>
    obtain ⟨ht, hc⟩ := both.eof_of_cons h
    have hword : t.lookahead = Foreign.word d := by
      rw [Tape.lookahead, both.words, h]
      rfl
    have hforeign : Host.lookahead (Foreign.mk t) = d := by
      rw [show Host.lookahead (Foreign.mk t) = Foreign.codePoint t.lookahead from rfl, hword]
      exact Foreign.codePoint_word d
    have hcursor : Host.lookahead c = d := congrArg Utf8.Decoded.char (both.ahead_eq h)
    rw [Host.peek, Host.peek, if_neg (by rw [show Host.eof (Foreign.mk t) = false from ht]; simp),
      if_neg (by rw [show Host.eof c = false from hc]; simp), hforeign, hcursor]

/-- The tape moves past one word. -/
lemma advance_tape (both : Corresponds cs initial t c) (h : cs.drop t.position = d :: ds)
    (skip : Bool) :
    t.advance skip = { t with
      position := t.position + 1
      rest := ds.map Foreign.word
      tokenStart := if skip then t.position + 1 else t.tokenStart } := by
  rw [Tape.advance, both.words, h]
  rfl

/-- The cursor moves past the bytes of one code point. -/
lemma advance_cursor (both : Corresponds cs initial t c) (h : cs.drop t.position = d :: ds)
    (skip : Bool) :
    c.advance skip = { c with
      position := Utf8.offset cs (t.position + 1)
      rest := Utf8.encode ds
      tokenStart := if skip then Utf8.offset cs (t.position + 1) else c.tokenStart } := by
  have hrest : c.rest.drop d.utf8Size = Utf8.encode ds := by
    rw [both.bytes, h]
    exact Utf8.drop_encode_cons
  rw [Cursor.advance, (both.eof_of_cons h).2, both.ahead_eq h, Utf8.offset_succ h, ← both.position,
    hrest]
  rfl

/-- Past a code point the tape is one word further and the cursor by the length of an encoding. -/
lemma advance (both : Corresponds cs initial t c) (skip : Bool) (he : t.eof = false) :
    Corresponds cs initial (t.advance skip) (c.advance skip) := by
  cases h : cs.drop t.position with
  | nil =>
    rw [(both.eof_of_nil h).1] at he
    cases he
  | cons d ds =>
    have hlt : t.position < cs.length := by
      apply Nat.lt_of_not_le
      intro hle
      rw [List.drop_eq_nil_of_le hle] at h
      cases h
    have hdrop : cs.drop (t.position + 1) = ds := by
      rw [← List.tail_drop, h]
      rfl
    have hstart := both.tokenStart_le
    rw [both.advance_tape h, both.advance_cursor h]
    refine ⟨rfl, ?_, both.tokenEnd, both.result, hlt, ?_, ?_, both.stops, ?_, ?_⟩
    · cases skip with
      | false => exact both.tokenStart
      | true => rfl
    · cases skip with
      | false => exact Nat.le_succ_of_le hstart
      | true => exact Nat.le_refl _
    · intro n hn
      exact Nat.le_succ_of_le (both.tokenEnd_le n hn)
    · rw [hdrop]
    · rw [hdrop]

/-- Both mark the end of the token at the same place. -/
lemma markEnd (both : Corresponds cs initial t c) : Corresponds cs initial t.markEnd c.markEnd := by
  refine { both with tokenEnd := congrArg some both.position, tokenEnd_le := ?_ }
  intro n hn
  cases hn
  exact Nat.le_refl _

/-- Both name the same symbol of the token. -/
lemma setSymbol (both : Corresponds cs initial t c) (s : Symbol) :
    Corresponds cs initial { t with result := s.ordinal } (c.setSymbol s) :=
  { both with result := rfl }

end Corresponds

end

/-- A scan cannot tell corresponding hosts apart. -/
theorem simulation_corresponds (cs : List Char) (initial : UInt16) :
    Simulation fun (h : Foreign Tape) (c : Cursor) => Corresponds cs initial h.raw c where
  peek both := both.peek_eq
  advance skip _ _ both he := both.advance skip he
  markEnd both := both.markEnd
  setSymbol s _ _ both := both.setSymbol s
  eof_setSymbol _ _ _ _ := rfl

/-- A tape is left with the ordinal of the symbol in its slot if a token was found, and with what
was there before if none was. -/
lemma Tape.result_scan (o : Options) (t : Tape) :
    let found := Scan.scan o (Recorded.start (Foreign.mk t))
    found.2.host.raw.result = if found.1.isOk then Symbol.comment.ordinal else t.result := by
  intro found
  have kept := run_preserves (o := o)
    (P := fun r : Recorded (Foreign Tape) => r.host.raw.result = t.result)
    (fun _ _ _ hr => hr) .leading (Recorded.start (Foreign.mk t)) rfl
  cases kept with
  | inl refused =>
    obtain ⟨reason, hverdict, hresult⟩ := refused
    rw [show found.1 = .error reason from hverdict]
    exact hresult
  | inr accepted =>
    obtain ⟨token, r, hfound, -⟩ := accepted
    rw [show found = (.ok token, report r) from hfound]
    rfl

section

universe u

variable {σ : Type u} [BoundedHost σ]

/-- A scanner reports a token exactly if the scan finds one. -/
lemma Scanner.found_scan (s : Scanner) (valid : List Bool) (h : σ) :
    (s.scan valid h).1 = (Scan.scan s.options h).1.isOk := by
  rw [Scanner.scan]
  cases Scan.scan s.options h with
  | mk v g =>
    cases v with
    | ok token => rfl
    | error reason => rfl

/-- A scanner leaves the host where the scan does. -/
lemma Scanner.host_scan (s : Scanner) (valid : List Bool) (h : σ) :
    (s.scan valid h).2.1 = (Scan.scan s.options h).2 := by
  rw [Scanner.scan]
  cases Scan.scan s.options h with
  | mk v g =>
    cases v with
    | ok token => rfl
    | error reason => rfl

end

/-- A scan for a foreign host that serves a text is a scan of the encoded text. It finds a token if
the latter does, by the same calls before the same code points and from corresponding states, leaves
corresponding states, and fills the slot for the symbol only if it finds a token. -/
theorem Foreign.scan_refines (cs : List Char) (beyond : Int32) (initial : UInt16)
    (valid : Option (List Bool)) (flags : List Bool) :
    ∃ r : Recorded (Foreign Tape),
      let tape := Tape.start (cs.map word) beyond [] initial
      let cursor := Cursor.ofInput (Utf8.encode cs)
      let foreign := Foreign.scan (some (Recorded.start (Foreign.mk tape))) valid
      let inMemory := ({} : Scanner).scan flags (Recorded.start cursor)
      foreign.1 = inMemory.1 ∧ foreign.2.1 = some r ∧
        List.Forall₂ (fun a b => a.action = b.action ∧ Host.peek a.before = Host.peek b.before ∧
          Corresponds cs initial a.before.raw b.before)
          r.calls.toList inMemory.2.1.calls.toList ∧
        Corresponds cs initial r.host.raw inMemory.2.1.host ∧
        r.host.raw.result = if foreign.1 then 0 else initial := by
  let start := Recorded.start (Foreign.mk (Tape.start (cs.map word) beyond [] initial))
  refine ⟨(Scan.scan {} start).2, ?_⟩
  intro tape cursor foreign inMemory
  -- What the host says of valid symbols is only reported, so both scans are plain ones.
  have hforeign : foreign.1 = (Scan.scan {} start).1.isOk := Scanner.found_scan scanner _ start
  have hmemory : inMemory.1 = (Scan.scan {} (Recorded.start cursor)).1.isOk :=
    Scanner.found_scan {} flags _
  have hhost : inMemory.2.1 = (Scan.scan {} (Recorded.start cursor)).2 :=
    Scanner.host_scan {} flags _
  have sim := (simulation_corresponds cs initial).recorded
  obtain ⟨hverdict, related⟩ := sim.run {} .leading
    (.start (h := Foreign.mk tape) (corresponds_start cs beyond initial))
  refine ⟨?_, ?_, ?_, ?_, ?_⟩
  · rw [hforeign, hmemory]
    exact congrArg Except.isOk hverdict
  · exact congrArg some (Scanner.host_scan scanner _ start)
  · rw [hhost]
    apply related.calls.imp
    intro a b hab
    exact ⟨hab.action, hab.before.peek_eq, hab.before⟩
  · rw [hhost]
    exact related.host
  · rw [hforeign]
    exact Tape.result_scan {} tape

end NestedComment
