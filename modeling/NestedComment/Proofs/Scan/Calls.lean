import NestedComment.Cursor.Basic
import NestedComment.Proofs.Scan.Simulation

/-!
# The calls of a scan

What a scan asks of a host, whatever host it is. `CallsIn` says which calls were made when the scan
is in a phase, every step keeps it (`callsIn_of_going`), and `CallsFor` says which calls were made
when it comes to a verdict. `calls_of_returns` tells the same of the list of calls as a whole:
blanks are skipped before anything is taken, nothing is asked past the end of the input, and only a
token is named and marked.
-/

namespace NestedComment

open Scan

universe u

variable {σ : Type u} [Host σ]

namespace Call

/-- The call skips a blank. -/
def Skips (o : Options) (a : Call σ) : Prop :=
  a.action = .advance true ∧ ∃ c, Host.peek a.before = some c ∧ o.isWhitespace c = true

/-- The call takes a code point into the token. -/
def Takes (c : Char) (a : Call σ) : Prop :=
  a.action = .advance false ∧ Host.peek a.before = some c

/-- The call skips nothing, and if it moves the input has not ended. -/
def Stays (a : Call σ) : Prop :=
  ∀ skip, a.action = .advance skip → skip = false ∧ Host.eof a.before = false

/-- A call that takes a code point stays in the input. -/
lemma Takes.stays {c : Char} {a : Call σ} (h : a.Takes c) : a.Stays := by
  intro skip hskip
  rw [h.1] at hskip
  cases hskip
  exact ⟨rfl, Host.eof_eq_false_of_peek h.2⟩

end Call

namespace Scan

/-- Calls that skip blanks, take the outer opener, and then take what `inner` takes. -/
inductive Opened (o : Options) (inner : List (Call σ)) : List (Call σ) → Prop where
  | intro {skips : List (Call σ)} {paren star : Call σ} :
    (∀ a ∈ skips, a.Skips o) → paren.Takes '(' → star.Takes '*' → (∀ a ∈ inner, ∃ c, a.Takes c) →
    Opened o inner (skips ++ paren :: star :: inner)

/-- The calls that were made when a scan is in a phase. Inside the comment a star that may start a
closer was taken last. -/
def CallsIn (o : Options) : Phase → List (Call σ) → Prop
  | .leading, calls => ∀ a ∈ calls, a.Skips o
  | .opening, calls =>
    ∃ skips paren, calls = skips ++ [paren] ∧ (∀ a ∈ skips, a.Skips o) ∧ paren.Takes '('
  | .entering, calls => Opened o [] calls
  | .body b, calls => ∃ inner, Opened o inner calls ∧
    (b.half = .closer → ∃ front star, inner = front ++ [star] ∧ star.Takes '*')

/-- The calls that were made when a scan comes to a verdict. -/
inductive CallsFor (o : Options) : Verdict → List (Call σ) → Prop where
  | abstained {reason : Abstention} {p : Phase} {calls : List (Call σ)} :
    CallsIn o p calls → CallsFor o (.error reason) calls
  | found {t : Token} {front calls : List (Call σ)} {star name close mark : Call σ} :
    Opened o (front ++ [star]) calls → star.Takes '*' → name.action = .setSymbol .comment →
    close.Takes ')' → mark.action = .markEnd → CallsFor o (.ok t) (calls ++ [name, close, mark])

section

variable {o : Options} {p q : Phase} {v : Verdict} {r s : Recorded σ} {calls inner : List (Call σ)}

/-- One more code point is taken behind the outer opener. -/
lemma Opened.snoc {a : Call σ} {c : Char} (opened : Opened o inner calls) (ha : a.Takes c) :
    Opened o (inner ++ [a]) (calls ++ [a]) := by
  obtain ⟨hskips, hparen, hstar, hinner⟩ := opened
  rw [List.append_assoc, List.cons_append, List.cons_append]
  refine .intro hskips hparen hstar ?_
  intro b hb
  rcases List.mem_append.1 hb with hb | hb
  · exact hinner b hb
  · rw [List.mem_singleton.1 hb]
    exact ⟨c, ha⟩

/-- The calls are some that skip blanks and then some that take code points. -/
lemma Opened.exists_skips_append (opened : Opened o inner calls) :
    ∃ skips taken, calls = skips ++ taken ∧ (∀ a ∈ skips, a.Skips o) ∧
      ∀ a ∈ taken, ∃ c, a.Takes c := by
  obtain ⟨hskips, hparen, hstar, hinner⟩ := opened
  refine ⟨_, _, rfl, hskips, ?_⟩
  intro a ha
  rcases List.mem_cons.1 ha with rfl | ha
  · exact ⟨_, hparen⟩
  · rcases List.mem_cons.1 ha with rfl | ha
    · exact ⟨_, hstar⟩
    · exact hinner a ha

/-- Moving records one call. -/
lemma calls_advance (skip : Bool) (r : Recorded σ) :
    (Host.advance skip r).calls.toList = r.calls.toList ++ [⟨.advance skip, r.host⟩] :=
  Array.toList_push

/-- Reporting a token records three calls: the symbol, the last code point and the end. -/
lemma calls_report (r : Recorded σ) :
    (report r).calls.toList = r.calls.toList ++ [⟨.setSymbol .comment, r.host⟩,
      ⟨.advance false, Host.setSymbol .comment r.host⟩,
      ⟨.markEnd, Host.advance false (Host.setSymbol .comment r.host)⟩] := by
  simp [report, Host.markEnd, Host.advance, Host.setSymbol, Recorded.record]

/-- A step that goes on keeps what the phases say of the calls. -/
lemma callsIn_of_going (hs : step o p r = .going q s) (made : CallsIn o p r.calls.toList) :
    CallsIn o q s.calls.toList := by
  rcases step_going_cases hs with ⟨hr, rfl⟩ | ⟨skip, c, hc, hr, rfl⟩
  · obtain ⟨b, rfl, hhalf, rfl | ⟨b', rfl, -⟩⟩ := Phase.hold_cases hr
    · refine ⟨[], made, ?_⟩
      rw [hhalf]
      nofun
    · obtain ⟨inner, opened, -⟩ := made
      refine ⟨inner, opened, ?_⟩
      rw [hhalf]
      nofun
  · rw [calls_advance]
    rcases Phase.consume_cases hr with ⟨rfl, rfl, rfl, hblank⟩ | ⟨rfl, rfl, rfl, rfl⟩ |
      ⟨rfl, rfl, rfl, rfl⟩ | ⟨b, rfl, -, rfl, rfl⟩
    · intro a ha
      rcases List.mem_append.1 ha with ha | ha
      · exact made a ha
      · rw [List.mem_singleton.1 ha]
        exact ⟨rfl, c, hc, hblank⟩
    · exact ⟨_, _, rfl, made, rfl, hc⟩
    · obtain ⟨skips, paren, hcalls, hskips, hparen⟩ := made
      rw [hcalls, List.append_assoc]
      exact .intro hskips hparen ⟨rfl, hc⟩ nofun
    · obtain ⟨inner, opened, -⟩ := made
      have taken : Call.Takes c ⟨.advance false, r.host⟩ := ⟨rfl, hc⟩
      refine ⟨_, opened.snoc taken, ?_⟩
      intro hhalf
      rw [Body.halfOf_eq_closer.1 hhalf] at taken
      exact ⟨inner, _, rfl, taken⟩

/-- The last step of a scan reports a token behind a star, or asks nothing. -/
lemma callsFor_of_stopped (hname : ∀ t (h : σ), Host.peek (Host.setSymbol t h) = Host.peek h)
    (hs : step o p r = .stopped v s) (made : CallsIn o p r.calls.toList) :
    CallsFor o v s.calls.toList := by
  rcases step_stopped_cases hs with ⟨reason, -, rfl, rfl⟩ | ⟨final, hc, hr, rfl, rfl⟩
  · exact .abstained made
  · obtain ⟨b, c, rfl, hseen, hb⟩ := Phase.body_of_accept hr
    obtain ⟨inner, opened, hcloser⟩ := made
    obtain ⟨front, star, rfl, hstar⟩ := hcloser (Body.see_of_accept hb).2.1
    have hclose : Host.peek (Host.setSymbol .comment r.host) = some ')' := by
      rw [hname]
      exact hc
    rw [calls_report]
    exact .found opened hstar rfl ⟨rfl, hclose⟩ rfl

/-- Whatever comes of a scan, it made the calls that belong to its verdict. -/
theorem callsFor_of_returns (hname : ∀ t (h : σ), Host.peek (Host.setSymbol t h) = Host.peek h)
    (returns : Returns o p r v s) (made : CallsIn o p r.calls.toList) :
    CallsFor o v s.calls.toList := by
  induction returns with
  | stop hs => exact callsFor_of_stopped hname hs made
  | go hs _ ih => exact ih (callsIn_of_going hs made)

/-- In every phase the calls that skip come before those that take. -/
lemma exists_skips_append (made : CallsIn o p calls) :
    ∃ skips taken, calls = skips ++ taken ∧ (∀ a ∈ skips, a.Skips o) ∧
      ∀ a ∈ taken, ∃ c, a.Takes c := by
  cases p with
  | leading => exact ⟨calls, [], (List.append_nil calls).symm, made, nofun⟩
  | opening =>
    obtain ⟨skips, paren, hcalls, hskips, hparen⟩ := made
    refine ⟨skips, [paren], hcalls, hskips, ?_⟩
    intro a ha
    rw [List.mem_singleton.1 ha]
    exact ⟨_, hparen⟩
  | entering => exact Opened.exists_skips_append made
  | body b =>
    obtain ⟨inner, opened, -⟩ := made
    exact opened.exists_skips_append

/-- Whatever comes of a scan, it skips first, and does not move at the end of the input. -/
lemma CallsFor.exists_skips_append (made : CallsFor o v calls) :
    ∃ skips others, calls = skips ++ others ∧ (∀ a ∈ skips, a.Skips o) ∧
      ∀ a ∈ others, a.Stays := by
  cases made with
  | abstained made =>
    obtain ⟨skips, taken, hcalls, hskips, htaken⟩ := Scan.exists_skips_append made
    refine ⟨skips, taken, hcalls, hskips, ?_⟩
    intro a ha
    obtain ⟨c, hc⟩ := htaken a ha
    exact hc.stays
  | @found t front calls star name close mark opened hstar hname hclose hmark =>
    obtain ⟨skips, taken, hcalls, hskips, htaken⟩ := opened.exists_skips_append
    refine ⟨skips, taken ++ [name, close, mark], ?_, hskips, ?_⟩
    · rw [hcalls, List.append_assoc]
    · intro a ha
      simp only [List.mem_append, List.mem_cons, List.not_mem_nil, or_false] at ha
      rcases ha with ha | rfl | rfl | rfl
      · obtain ⟨c, hc⟩ := htaken a ha
        exact hc.stays
      · intro skip hskip
        rw [hname] at hskip
        cases hskip
      · exact hclose.stays
      · intro skip hskip
        rw [hmark] at hskip
        cases hskip

end

/-- Recording changes nothing for the one who calls. -/
lemma simulation_recorded (hname : ∀ t (h : σ), Host.peek (Host.setSymbol t h) = Host.peek h) :
    Simulation fun (h : σ) (r : Recorded σ) => r.host = h where
  peek related := by rw [← related]; rfl
  advance skip _ _ related _ := by rw [← related]; rfl
  markEnd related := by rw [← related]; rfl
  setSymbol t _ _ related := by rw [← related]; rfl
  eof_setSymbol t h _ _ := by
    have hpeek := hname t h
    rw [Bool.eq_iff_iff, ← Host.peek_eq_none_iff, hpeek, Host.peek_eq_none_iff]

/-- A scan that abstains has only moved the host. -/
lemma CallsFor.advances_of_error {o : Options} {reason : Abstention} {calls : List (Call σ)}
    (made : CallsFor o (.error reason) calls) : ∀ a ∈ calls, ∃ skip, a.action = .advance skip := by
  cases made with
  | abstained made =>
    obtain ⟨skips, taken, rfl, hskips, htaken⟩ := Scan.exists_skips_append made
    intro a ha
    rcases List.mem_append.1 ha with ha | ha
    · exact ⟨true, (hskips a ha).1⟩
    · obtain ⟨c, hc⟩ := htaken a ha
      exact ⟨false, hc.1⟩

/-- The calls that a scan makes on a host on which naming a symbol shows nothing new, whatever else
the host does. No call moves at the end of the input, and blanks are skipped before anything else is
done. A scan that abstains only moves. One that finds a token skips blanks, takes the opener and
what stands inside up to a star, names the comment, takes the parenthesis and marks the end. -/
theorem calls_of_returns {o : Options} {h g : σ} {v : Verdict}
    (hname : ∀ t (h : σ), Host.peek (Host.setSymbol t h) = Host.peek h)
    (returns : Returns o .leading h v g) :
    ∃ r : Recorded σ, Returns o .leading (Recorded.start h) v r ∧ r.host = g ∧
      let calls := r.calls.toList
      (∀ a ∈ calls, ∀ skip, a.action = .advance skip → Host.eof a.before = false) ∧
      (∃ skips others, calls = skips ++ others ∧ (∀ a ∈ skips, a.Skips o) ∧
        ∀ a ∈ others, a.action ≠ .advance true) ∧
      (∀ reason, v = .error reason →
        ∀ a ∈ calls, a.action ≠ .markEnd ∧ ∀ t, a.action ≠ .setSymbol t) ∧
      (∀ token, v = .ok token → ∃ skips paren star inner last name close mark,
        calls = skips ++ paren :: star :: (inner ++ [last]) ++ [name, close, mark] ∧
        (∀ a ∈ skips, a.Skips o) ∧ paren.Takes '(' ∧ star.Takes '*' ∧
        (∀ a ∈ inner, ∃ c, a.Takes c) ∧ last.Takes '*' ∧ name.action = .setSymbol .comment ∧
        close.Takes ')' ∧ mark.action = .markEnd) := by
  obtain ⟨r, returned, hhost⟩ :=
    (simulation_recorded hname).returns (g := Recorded.start h) rfl returns
  have made : CallsFor o v r.calls.toList := callsFor_of_returns hname returned nofun
  obtain ⟨skips, others, hcalls, hskips, hothers⟩ := made.exists_skips_append
  refine ⟨r, returned, hhost, ?_, ⟨skips, others, hcalls, hskips, ?_⟩, ?_, ?_⟩
  · rw [hcalls]
    intro a ha skip hskip
    rcases List.mem_append.1 ha with ha | ha
    · obtain ⟨-, c, hc, -⟩ := hskips a ha
      exact Host.eof_eq_false_of_peek hc
    · exact (hothers a ha skip hskip).2
  · intro a ha hskip
    cases (hothers a ha true hskip).1
  · rintro reason rfl a ha
    obtain ⟨skip, hskip⟩ := made.advances_of_error a ha
    rw [hskip]
    exact ⟨nofun, nofun⟩
  · rintro token rfl
    generalize r.calls.toList = calls at made
    cases made with
    | @found t inner calls last name close mark opened hlast hname hclose hmark =>
      cases opened with
      | @intro skips paren star hskips hparen hstar hinner =>
        refine ⟨skips, paren, star, inner, last, name, close, mark, rfl, hskips, hparen, hstar, ?_,
          hlast, hname, hclose, hmark⟩
        intro a ha
        exact hinner a (List.mem_append_left _ ha)

/-- A cursor shows nothing new when a symbol is named, and is asked to skip the blank before a
comment. -/
theorem calls_of_returns_of_blank :
    let c := Cursor.ofInput [0x20, 0x28, 0x2A, 0x78, 0x2A, 0x29]
    (∀ t (d : Cursor), Host.peek (Host.setSymbol t d) = Host.peek d) ∧
      Returns {} .leading c (.ok ⟨.comment, 1⟩) (scan {} c).2 ∧
      ∃ (r : Recorded Cursor) (front : List (Call Cursor)) (last name close mark : Call Cursor),
        Returns {} .leading (Recorded.start c) (.ok ⟨.comment, 1⟩) r ∧
        r.calls.toList = front ++ [last, name, close, mark] ∧ last.Takes '*' ∧
        name.action = .setSymbol .comment ∧ close.Takes ')' ∧ mark.action = .markEnd := by
  intro c
  have hname : ∀ t (d : Cursor), Host.peek (Host.setSymbol t d) = Host.peek d := fun _ _ => rfl
  have hverdict : (scan {} c).1 = .ok ⟨.comment, 1⟩ := by decide +kernel
  have returns : Returns {} .leading c (.ok ⟨.comment, 1⟩) (scan {} c).2 :=
    returns_iff_run.2 (Prod.ext hverdict rfl)
  obtain ⟨r, returned, -, -, -, -, hfound⟩ := calls_of_returns hname returns
  obtain ⟨skips, paren, star, inner, last, name, close, mark, hcalls, -, -, -, -, hlast, hnamed,
    hclose, hmark⟩ := hfound ⟨.comment, 1⟩ rfl
  refine ⟨hname, returns, r, skips ++ paren :: star :: inner, last, name, close, mark, returned, ?_,
    hlast, hnamed, hclose, hmark⟩
  rw [hcalls]
  simp

end Scan

end NestedComment
