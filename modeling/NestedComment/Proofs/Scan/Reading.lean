import Mathlib.Data.List.TakeWhile
import Mathlib.Logic.Function.Iterate
import NestedComment.Proofs.Scan.Round

/-!
# Scans of a known text

A `Readable` host is one whose code points are known in advance: from each of its states they form a
list, of which moving takes the first. On such a host a scan passes as many code points at once as
the list shows to be harmless: blanks before a comment (`reaches_blanks`), and inside it any text
that neither ends the comment nor overflows (`reaches_trail`).
-/

namespace NestedComment

universe u

/-- A host whose code points are known in advance. -/
class Readable (σ : Type u) [Host σ] where
  /-- The code points from the cursor to the end of the input. -/
  text : σ → List Char
  peek_eq (h : σ) : Host.peek h = (text h).head?
  text_advance (skip : Bool) (h : σ) :
    Host.eof h = false → text (Host.advance skip h) = (text h).tail

namespace Readable

variable {σ : Type u} [Host σ] [Readable σ] {h : σ} {c : Char} {cs rest : List Char}

/-- The first code point of the text is seen. -/
lemma peek_of_text (ht : text h = c :: cs) : Host.peek h = some c := by
  rw [peek_eq, ht]
  rfl

/-- At the end of the text nothing is seen. -/
lemma peek_of_nil (ht : text h = []) : Host.peek h = none := by
  rw [peek_eq, ht]
  rfl

/-- Moving leaves the text behind the first code point. -/
lemma text_of_advance (skip : Bool) (ht : text h = c :: cs) :
    text (Host.advance skip h) = cs := by
  rw [text_advance skip h (Host.eof_eq_false_of_peek (peek_of_text ht)), ht]
  rfl

/-- Moving twice leaves the text behind the first two code points. -/
lemma text_of_advance_two {d : Char} (skip : Bool) (ht : text h = c :: d :: cs) :
    text ((Host.advance skip)^[2] h) = cs :=
  text_of_advance skip (text_of_advance skip ht)

/-- Moving takes the code points in their order. -/
lemma text_iterate (skip : Bool) (ht : text h = cs ++ rest) :
    text ((Host.advance skip)^[cs.length] h) = rest := by
  induction cs generalizing h with
  | nil => exact ht
  | cons c cs ih => exact ih (text_of_advance skip ht)

end Readable

namespace Scan

namespace Body

/-- The state behind a text. -/
def trail (b : Body) (cs : List Char) : Body := cs.foldl after b

/-- No code point of a text ends the comment or overflows. -/
def Passes (limit : Option UInt64) : Body → List Char → Prop
  | _, [] => True
  | b, c :: cs => ¬b.Ends c ∧ ¬b.Overflows limit c ∧ Passes limit (b.after c) cs

/-- The empty text changes no state. -/
@[simp] lemma trail_nil (b : Body) : b.trail [] = b := rfl

/-- The state behind a text comes of its first code point, then of the others. -/
@[simp] lemma trail_cons (b : Body) (c : Char) (cs : List Char) :
    b.trail (c :: cs) = (b.after c).trail cs := rfl

/-- The state behind two texts comes of the first, then of the second. -/
@[simp] lemma trail_append (b : Body) (cs ds : List Char) :
    b.trail (cs ++ ds) = (b.trail cs).trail ds :=
  List.foldl_append

/-- Two texts in a row are passed exactly if the first is and the second is behind it. -/
lemma passes_append {limit : Option UInt64} {b : Body} {cs ds : List Char} :
    b.Passes limit (cs ++ ds) ↔ b.Passes limit cs ∧ (b.trail cs).Passes limit ds := by
  induction cs generalizing b with
  | nil => simp [Passes]
  | cons c cs ih => simp [Passes, ih, and_assoc]

/-- A code point that is no part of any delimiter. -/
def Inert (c : Char) : Prop := c ≠ '(' ∧ c ≠ '*' ∧ c ≠ ')'

section

variable {b : Body} {c : Char} {cs : List Char} {limit : Option UInt64}

/-- An inert code point completes no opener. -/
lemma Inert.not_opens (h : Inert c) : ¬b.Opens c := fun hopens => h.2.1 hopens.2

/-- An inert code point completes no closer. -/
lemma Inert.not_closes (h : Inert c) : ¬b.Closes c := fun hcloses => h.2.2 hcloses.2

/-- Behind an inert code point no delimiter is begun. -/
lemma Inert.after_eq (h : Inert c) : b.after c = { b with half := .neither } := by
  rw [after_of_not h.not_opens h.not_closes, halfOf, if_neg h.2.1, if_neg h.1]

/-- A text of inert code points is passed. -/
lemma passes_of_inert (hcs : ∀ c ∈ cs, Inert c) : b.Passes limit cs := by
  induction cs generalizing b with
  | nil => trivial
  | cons c cs ih =>
    have hc : Inert c := hcs c List.mem_cons_self
    refine ⟨fun hends => hc.not_closes hends.1, fun hover => hc.not_opens hover.1, ?_⟩
    apply ih
    intro d hd
    exact hcs d (List.mem_cons_of_mem c hd)

/-- Behind inert code points, however many, the machine remembers only its depth. -/
lemma trail_of_inert (hcs : ∀ c ∈ cs, Inert c) (hne : cs ≠ []) :
    b.trail cs = { b with half := .neither } := by
  induction cs generalizing b with
  | nil => exact absurd rfl hne
  | cons c cs ih =>
    rw [trail_cons, (hcs c List.mem_cons_self).after_eq]
    cases cs with
    | nil => rfl
    | cons d cs => exact ih (fun c hc => hcs c (List.mem_cons_of_mem _ hc)) (List.cons_ne_nil d cs)

end

end Body

section

variable {σ : Type u} [Host σ] {o : Options} {h : σ}

/-- Before anything but a blank or a parenthesis there is no comment. -/
lemma step_leading_of_other (hblank : ∀ c ∈ Host.peek h, ¬o.isWhitespace c)
    (hparen : Host.peek h ≠ some '(') :
    step o .leading h = .stopped (.error (.notAComment (Host.peek h))) h := by
  rw [step]
  cases hc : Host.peek h with
  | none => rfl
  | some c =>
    rw [hc] at hblank hparen
    have hne : c ≠ '(' := fun e => hparen (congrArg some e)
    simp [Phase.react, hblank c rfl, hne, perform]

/-- Behind the blanks a parenthesis is taken. -/
lemma step_leading_of_paren (hparen : Host.peek h = some '(') :
    step o .leading h = .going .opening (Host.advance false h) := by
  rw [step, hparen]
  simp [Phase.react, perform]

/-- A parenthesis without a star opens no comment. -/
lemma step_opening_of_other (hstar : Host.peek h ≠ some '*') :
    step o .opening h = .stopped (.error (.partialOpener (Host.peek h))) h := by
  rw [step]
  cases hc : Host.peek h with
  | none => rfl
  | some c =>
    rw [hc] at hstar
    have hne : c ≠ '*' := fun e => hstar (congrArg some e)
    simp [Phase.react, hne, perform]

/-- Behind the parenthesis a star is taken. -/
lemma step_opening_of_star (hstar : Host.peek h = some '*') :
    step o .opening h = .going .entering (Host.advance false h) := by
  rw [step, hstar]
  rfl

end

variable {σ : Type u} [Host σ] [Readable σ] {o : Options} {h : σ} {cs rest : List Char}

/-- Blanks before a comment are skipped. -/
theorem reaches_blanks (ht : Readable.text h = cs ++ rest) (hcs : ∀ c ∈ cs, o.isWhitespace c) :
    Reaches o .leading h .leading ((Host.advance true)^[cs.length] h) := by
  induction cs generalizing h with
  | nil => exact .refl
  | cons c cs ih =>
    have skipped : step o .leading h = .going .leading (Host.advance true h) := by
      rw [step, Readable.peek_of_text ht]
      simp [Phase.react, hcs c List.mem_cons_self, perform]
    apply Reaches.go skipped
    apply ih (Readable.text_of_advance true ht)
    intro d hd
    exact hcs d (List.mem_cons_of_mem c hd)

/-- A text inside a comment is passed if no code point of it stops the scan. -/
theorem reaches_trail {b : Body} (ht : Readable.text h = cs ++ rest)
    (hcs : b.Passes o.maxDepth cs) :
    Reaches o (.body b) h (.body (b.trail cs)) ((Host.advance false)^[cs.length] h) := by
  induction cs generalizing b h with
  | nil => exact .refl
  | cons c cs ih =>
    obtain ⟨hends, hover, hrest⟩ := hcs
    have passed := reaches_after (o := o) (Readable.peek_of_text ht) hends hover
    exact passed.trans (ih (Readable.text_of_advance false ht) hrest)

/-- The opener is passed. -/
lemma reaches_opener (ht : Readable.text h = '(' :: '*' :: rest) :
    Reaches o .leading h .entering ((Host.advance false)^[2] h) := by
  have first := step_leading_of_paren (o := o) (Readable.peek_of_text ht)
  have rest := Readable.peek_of_text (Readable.text_of_advance false ht)
  exact .go first (.single (step_opening_of_star rest))

section

variable {σ : Type u} [BoundedHost σ] [Readable σ]

/-- The blanks before a comment. -/
def blanks (o : Options) (h : σ) : List Char := (Readable.text h).takeWhile o.isWhitespace

/-- The text behind the blanks. -/
def behindBlanks (o : Options) (h : σ) : List Char := (Readable.text h).dropWhile o.isWhitespace

/-- The text is made of the blanks and what is behind them. -/
lemma text_eq_blanks_append (o : Options) (h : σ) :
    Readable.text h = blanks o h ++ behindBlanks o h :=
  List.takeWhile_append_dropWhile.symm

/-- No blank comes first behind the blanks. -/
lemma head_behindBlanks {o : Options} {h : σ} {c : Char} (hc : c ∈ (behindBlanks o h).head?) :
    ¬o.isWhitespace c := by
  have hnot := List.head?_dropWhile_not o.isWhitespace (Readable.text h)
  rw [behindBlanks] at hc
  rw [Option.mem_def.1 hc] at hnot
  simpa using hnot

/-- A scan comes to the first code point that is no blank. -/
lemma scan_eq_run_behindBlanks (o : Options) (h : σ) :
    scan o h = run o .leading ((Host.advance true)^[(blanks o h).length] h) := by
  apply Reaches.run_eq
  apply reaches_blanks (text_eq_blanks_append o h)
  intro c hc
  exact List.mem_takeWhile_imp hc

/-- When the blanks have been skipped, the text behind them is left. -/
lemma text_behindBlanks (o : Options) (h : σ) :
    Readable.text ((Host.advance true)^[(blanks o h).length] h) = behindBlanks o h :=
  Readable.text_iterate true (text_eq_blanks_append o h)

/-- A scan that finds no parenthesis behind the blanks stays there, and finds no comment. -/
theorem scan_of_no_paren {o : Options} {h : σ} (hparen : (behindBlanks o h).head? ≠ some '(') :
    scan o h = (.error (.notAComment (behindBlanks o h).head?),
      (Host.advance true)^[(blanks o h).length] h) := by
  have hpeek := Readable.peek_eq ((Host.advance true)^[(blanks o h).length] h)
  rw [text_behindBlanks] at hpeek
  rw [scan_eq_run_behindBlanks, ← hpeek]
  apply run_of_stopped
  apply step_leading_of_other
  · intro c hc
    rw [hpeek] at hc
    exact head_behindBlanks hc
  · rwa [hpeek]

/-- A scan that finds no star behind the parenthesis stays there with half an opener. -/
theorem scan_of_no_star {o : Options} {h : σ} {cs : List Char}
    (hparen : behindBlanks o h = '(' :: cs) (hstar : cs.head? ≠ some '*') :
    scan o h = (.error (.partialOpener cs.head?),
      Host.advance false ((Host.advance true)^[(blanks o h).length] h)) := by
  have htext := text_behindBlanks o h
  rw [hparen] at htext
  have hpeek := Readable.peek_eq (Host.advance false ((Host.advance true)^[(blanks o h).length] h))
  rw [Readable.text_of_advance false htext] at hpeek
  rw [scan_eq_run_behindBlanks, ← hpeek]
  rw [run_of_going (step_leading_of_paren (Readable.peek_of_text htext))]
  apply run_of_stopped
  apply step_opening_of_other
  rwa [hpeek]

/-- The place behind the outer opener, if there is one. -/
def behindOpener (o : Options) (h : σ) : σ :=
  (Host.advance false)^[2] ((Host.advance true)^[(blanks o h).length] h)

/-- A scan that finds an opener goes on behind it. -/
theorem scan_of_opener {o : Options} {h : σ} {b : List Char}
    (hopener : behindBlanks o h = '(' :: '*' :: b) :
    scan o h = run o .entering (behindOpener o h) := by
  have htext := text_behindBlanks o h
  rw [hopener] at htext
  rw [scan_eq_run_behindBlanks]
  exact (reaches_opener htext).run_eq

/-- When the opener has been taken, the text behind it is left. -/
lemma text_behindOpener {o : Options} {h : σ} {b : List Char}
    (hopener : behindBlanks o h = '(' :: '*' :: b) : Readable.text (behindOpener o h) = b := by
  have htext := text_behindBlanks o h
  rw [hopener] at htext
  exact Readable.text_of_advance_two false htext

end

end Scan

end NestedComment
