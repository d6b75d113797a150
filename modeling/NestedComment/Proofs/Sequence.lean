import NestedComment.Proofs.Cursor.Comment

/-!
# Comments in a row

A host that resumes after every scan reads comments that stand in a row back one by one, with
nothing or blanks between them. `scans` are its scans, and `ReadBack` says that they come to the
comments of an input in their order and then to its end. `readBack_scans` says that they do if every
comment is one on its own.
-/

namespace NestedComment

open Scan

/-- Some blanks, a comment behind them and the token that is found in it. -/
structure Passage where
  blanks : List Char
  comment : List UInt8
  token : Token

/-- A scan takes the blanks for blanks, and of the comment alone it takes every byte. -/
structure Passage.Sound (o : Options) (p : Passage) : Prop where
  blank : ∀ c ∈ p.blanks, o.isWhitespace c
  alone : ∃ d, scan o (Cursor.ofInput p.comment) = (.ok p.token, d) ∧
    d.token = .ok (some p.comment)

/-- Passages in a row, and blanks behind them, as bytes. -/
def written : List Passage → List Char → List UInt8
  | [], ws => Utf8.encode ws
  | p :: ps, ws => Utf8.encode p.blanks ++ (p.comment ++ written ps ws)

/-- The results of `n` scans in a row, after each of which the host resumes. -/
def scans (o : Options) : Nat → Cursor → List (Verdict × Cursor)
  | 0, _ => []
  | n + 1, c => scan o c :: scans o n (scan o c).2.resume

/-- Scans find the comments of passages in their order from an offset on, each with its own bytes
and its own token, and then nothing but the end of the input. -/
inductive ReadBack (stop : Nat) : Nat → List Passage → List (Verdict × Cursor) → Prop where
  | done {start : Nat} {d : Cursor} : Host.eof d = true → d.position = stop →
    ReadBack stop start [] [(.error (.notAComment none), d)]
  | found {start : Nat} {p : Passage} {ps : List Passage} {d : Cursor}
    {results : List (Verdict × Cursor)} :
    d.Holds (start + (Utf8.encode p.blanks).length) p.comment →
    ReadBack stop (start + (Utf8.encode p.blanks).length + p.comment.length) ps results →
    ReadBack stop start (p :: ps) ((.ok p.token, d) :: results)

section

variable {o : Options} {p : Passage} {ps : List Passage} {ws : List Char} {input : List UInt8}
  {start : Nat}

/-- The comment of a sound passage is one comment and nothing else. -/
lemma Passage.Sound.isComment (sound : p.Sound o) : IsComment o p.comment p.token := by
  obtain ⟨d, hs, htoken⟩ := sound.alone
  exact Cursor.isComment_of_token hs htoken

/-- Of blanks alone a scan skips all. -/
lemma scan_of_blank (h : start ≤ input.length) (hdrop : input.drop start = Utf8.encode ws)
    (hws : ∀ c ∈ ws, o.isWhitespace c) :
    ∃ d, scan o (Cursor.atOffset input start) = (.error (.notAComment none), d) ∧
      Host.eof d = true ∧ d.position = input.length := by
  let c := Cursor.atOffset input start
  have fresh : c.Fresh := .atOffset input start
  have htext : Readable.text c = ws :=
    Cursor.text_of_encode ((Cursor.rest_atOffset h).trans hdrop)
  have hblanks : blanks o c = ws := by
    rw [blanks, htext]
    exact List.takeWhile_eq_self_iff.2 hws
  have hbehind : behindBlanks o c = [] := by
    rw [behindBlanks, htext]
    exact List.dropWhile_eq_nil_iff.2 hws
  have hs := scan_of_no_paren (o := o) (h := c) (by simp [hbehind])
  rw [hbehind, hblanks] at hs
  have hposition : ((Host.advance true)^[ws.length] c).position = input.length := by
    rw [Cursor.position_iterate, ← htext, Cursor.offsetAt_length_text, fresh.length_eq]
    rfl
  refine ⟨_, hs, ?_, hposition⟩
  have hrest := (fresh.placed.iterate true ws.length).rest_eq
  rw [hposition, Cursor.input_iterate] at hrest
  exact List.isEmpty_iff.2 (hrest.trans List.drop_length)

/-- A comment is found behind its blanks, and the host goes on at its end. -/
lemma scan_of_passage (sound : p.Sound o) (h : start ≤ input.length)
    (hdrop : input.drop start = written (p :: ps) ws) :
    let stop := start + (Utf8.encode p.blanks).length + p.comment.length
    stop ≤ input.length ∧ input.drop stop = written ps ws ∧
      ∃ d, scan o (Cursor.atOffset input start) = (.ok p.token, d) ∧
        d.Holds (start + (Utf8.encode p.blanks).length) p.comment ∧
        d.resume = Cursor.atOffset input stop := by
  intro stop
  have hlength := congrArg List.length hdrop
  rw [written, List.length_drop, List.length_append, List.length_append] at hlength
  have hstop : stop ≤ input.length := by omega
  have hrest : input.drop stop = written ps ws := by
    rw [← List.drop_drop, ← List.drop_drop, hdrop, written, List.drop_left, List.drop_left]
  obtain ⟨d, hs, holds⟩ := Cursor.scan_of_isComment h hdrop sound.blank sound.isComment
  refine ⟨hstop, hrest, d, hs, holds, ?_⟩
  have hinput := ((Cursor.placed_atOffset input start).scan o).1
  rw [hs] at hinput
  rw [Cursor.resume, holds.tokenEnd_eq, show d.input = input from hinput]
  rfl

/-- Scans in a row read sound passages back, from wherever they are written. -/
theorem readBack_scansFrom (sound : ∀ p ∈ ps, p.Sound o) (hws : ∀ c ∈ ws, o.isWhitespace c)
    (h : start ≤ input.length) (hdrop : input.drop start = written ps ws) :
    ReadBack input.length start ps (scans o (ps.length + 1) (Cursor.atOffset input start)) := by
  induction ps generalizing start with
  | nil =>
    obtain ⟨d, hs, heof, hposition⟩ := scan_of_blank h hdrop hws
    rw [List.length_nil, scans, hs]
    exact .done heof hposition
  | cons p ps ih =>
    obtain ⟨hstop, hrest, d, hs, holds, hresume⟩ :=
      scan_of_passage (sound p List.mem_cons_self) h hdrop
    rw [List.length_cons, scans, hs, hresume]
    apply ReadBack.found holds
    apply ih
    · exact fun q hq => sound q (List.mem_cons_of_mem p hq)
    · exact hstop
    · exact hrest

end

/-- Comments in a row are read back one by one, whatever blanks stand before, between and behind
them. -/
theorem readBack_scans {o : Options} {ps : List Passage} {ws : List Char}
    (sound : ∀ p ∈ ps, p.Sound o) (hws : ∀ c ∈ ws, o.isWhitespace c) :
    let input := written ps ws
    ReadBack input.length 0 ps (scans o (ps.length + 1) (Cursor.ofInput input)) :=
  readBack_scansFrom sound hws (Nat.zero_le _) rfl

/-- Two comments that touch, the first behind blanks and the other with a malformed byte. -/
theorem readBack_scans_of_touching :
    let ps : List Passage :=
      [⟨[' ', '\u2028'], [0x28, 0x2A, 0x2A, 0x29], ⟨.comment, 1⟩⟩,
        ⟨[], [0x28, 0x2A, 0xE2, 0x28, 0x2A, 0x29, 0x2A, 0x29], ⟨.comment, 2⟩⟩]
    (∀ p ∈ ps, p.Sound {}) ∧
      ReadBack 17 0 ps (scans {} 3 (Cursor.ofInput (written ps ['\n']))) := by
  intro ps
  have hspace : ({} : Options).isWhitespace ' ' := by decide
  have hseparator : ({} : Options).isWhitespace '\u2028' := by decide
  have hnewline : ({} : Options).isWhitespace '\n' := by decide
  have sound : ∀ p ∈ ps, p.Sound {} := by
    intro p hp
    rcases List.mem_pair.1 hp with rfl | rfl
    · refine ⟨?_, _, Prod.ext (by decide +kernel) rfl, by decide +kernel⟩
      exact List.forall_mem_cons.2 ⟨hspace, List.forall_mem_singleton.2 hseparator⟩
    · exact ⟨List.forall_mem_nil _, _, Prod.ext (by decide +kernel) rfl, by decide +kernel⟩
  exact ⟨sound, readBack_scans sound (List.forall_mem_singleton.2 hnewline)⟩

end NestedComment
