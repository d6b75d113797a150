import NestedComment.Proofs.Options.Members

/-!
# Documents of options

A document of options is read member by member. Reading one member is adding what it denotes
(`readMembers_cons`), so an object is read as the options that its members describe
(`parse_eq_ofValue`).
-/

namespace NestedComment.Options

open Json (Blank Entry Fault Leaf Misfit Number Spaced Value)

section

variable {text rest : List Char} {l : Leaf} {v : Value}

/-- A depth limit is read from the document as from the value that stands there. -/
lemma readDepth_of_denotes (ends : Number.Ends rest) (plain : l.Plain) (denotes : l.Denotes v)
    (hskip : Json.skipBlanks text = l.token ++ rest) :
    readDepth text = ((depthOfValue v).mapError Fault.unfit).map (·, rest) := by
  rw [readDepth]
  by_cases hnull : l = .null
  · subst hnull
    cases denotes
    rw [Json.nullOr_null hskip]
    rfl
  · rw [Json.nullOr_of_ne hnull hskip]
    by_cases hnatural : ∃ n, v = .number (.natural n)
    · obtain ⟨n, rfl⟩ := hnatural
      cases denotes with
      | natural hn =>
        rw [Json.natural_fits ends hn]
        rfl
    · rw [Json.natural_misfit ends plain denotes fun n hn => hnatural ⟨n, hn⟩]
      cases denotes with
      | null => exact absurd rfl hnull
      | natural => exact absurd ⟨_, rfl⟩ hnatural
      | boolean | floating | text => rfl

/-- A choice is read from the document as from the value that stands there. -/
lemma readChoice_of_denotes (ends : Number.Ends rest) (plain : l.Plain) (denotes : l.Denotes v)
    (hskip : Json.skipBlanks text = l.token ++ rest) :
    readChoice text = ((choiceOfValue v).mapError Fault.unfit).map (·, rest) := by
  rw [readChoice]
  by_cases hl : ∃ b, l = .boolean b
  · obtain ⟨b, rfl⟩ := hl
    cases denotes
    rw [Json.boolean_fits hskip]
    rfl
  · rw [Json.boolean_misfit ends plain denotes (fun b hb => hl ⟨b, hb⟩) hskip]
    cases denotes with
    | boolean b => exact absurd ⟨b, rfl⟩ hl
    | null | natural | floating | text => rfl

end

section

variable {ms : List Entry} {m : Entry} {first : Bool} {text : List Char}
  {p : List Char × Value} {ps : List (List Char × Value)}

/-- Reading a member is adding what it denotes. -/
lemma readMembers_cons (spaced : Spaced (Entry.tokens first (m :: ms)) text) (plain : m.Plain)
    (denotes : m.Denotes p) : ∃ rest, Spaced (Entry.tokens false ms) rest ∧
      ∀ r, readMembers r first text =
        (addMember r p).mapError Fault.unfit >>= fun r => readMembers r false rest := by
  obtain ⟨s, v⟩ := p
  obtain ⟨hs, denotes⟩ := denotes
  obtain ⟨behindName, hname, spaced⟩ := spaced.memberName_cons plain.name
  obtain ⟨behindColon, hcolon, spaced⟩ := spaced.mark rfl
  obtain ⟨rest, hskip, ends, spaced⟩ := spaced.value
  refine ⟨rest, spaced, fun r => ?_⟩
  have hdepth := readDepth_of_denotes ends plain.value denotes hskip
  have hchoice := readChoice_of_denotes ends plain.value denotes hskip
  rw [readMembers, hname, ← hs, addMember]
  simp only [bind, Except.bind]
  cases Field.ofName? s with
  | none => rfl
  | some f =>
    cases f with
    | maxDepth =>
      simp only [hcolon, hdepth]
      split
      · rfl
      · cases depthOfValue v <;> rfl
    | asciiWhitespaceOnly =>
      simp only [hcolon, hchoice]
      split
      · rfl
      · cases choiceOfValue v <;> rfl

/-- Reading members up to the end of their object is adding what they denote. -/
lemma readMembers_tokens (spaced : Spaced (Entry.tokens first ms) text)
    (plain : ∀ m ∈ ms, m.Plain) (denotes : List.Forall₂ Entry.Denotes ms ps) (r : Members) :
    ∃ rest, Spaced [] rest ∧
      readMembers r first text = ((ps.foldlM addMember r).mapError Fault.unfit).map (·, rest) := by
  induction denotes generalizing first text r with
  | nil =>
    obtain ⟨rest, hname, spaced⟩ := spaced.memberName_nil
    refine ⟨rest, spaced, ?_⟩
    rw [readMembers, hname]
    rfl
  | @cons m p ms ps denotes _ ih =>
    obtain ⟨behind, spaced, hread⟩ := readMembers_cons spaced (plain m List.mem_cons_self) denotes
    rw [hread, List.foldlM_cons]
    cases addMember r p with
    -- Nothing is read behind the fault, so any blanks will do.
    | error e => exact ⟨[], .nil Json.blank_nil, rfl⟩
    | ok r => exact ih spaced (fun n hn => plain n (List.mem_cons_of_mem m hn)) r

/-- An object is read as the options that its members describe. -/
lemma parse_eq_ofValue {document : String} (spaced : Spaced (Entry.object ms) document.toList)
    (plain : ∀ m ∈ ms, m.Plain) (denotes : List.Forall₂ Entry.Denotes ms ps) :
    parse document = (ofValue (.object ps)).mapError Fault.unfit := by
  obtain ⟨members, hskip, spaced⟩ := Spaced.skip spaced (Json.solid_cons rfl)
  obtain ⟨rest, spaced, hread⟩ := readMembers_tokens spaced plain denotes {}
  rw [parse, read, hskip, ofValue]
  simp only [List.singleton_append, bind, Except.bind, hread]
  cases ps.foldlM addMember {} with
  | error e => rfl
  | ok r => exact spaced.finish r.options

/-- Plain members denote something. -/
lemma exists_forall₂ (plain : ∀ m ∈ ms, m.Plain) : ∃ ps, List.Forall₂ Entry.Denotes ms ps := by
  induction ms with
  | nil => exact ⟨[], .nil⟩
  | cons m ms ih =>
    obtain ⟨v, hv⟩ := Leaf.exists_denotes (plain m List.mem_cons_self).value
    obtain ⟨ps, hps⟩ := ih fun n hn => plain n (List.mem_cons_of_mem m hn)
    exact ⟨(m.name, v) :: ps, .cons ⟨rfl, hv⟩ hps⟩

end

section

variable {ms : List Entry} {document : String}

/-- The document of an object is read as what its members give, exactly if they are accepted. -/
lemma parse_eq_ok_iff (spaced : Spaced (Entry.object ms) document.toList)
    (plain : ∀ m ∈ ms, m.Plain) {o : Options} :
    parse document = .ok o ↔ Accepted ms ∧ Gives ms o := by
  obtain ⟨ps, denotes⟩ := exists_forall₂ plain
  rw [← ofValue_eq_ok_iff denotes, parse_eq_ofValue spaced plain denotes]
  cases ofValue (.object ps) <;> simp [Except.mapError]

/-- The document of an object is refused for the first member that offends, and for no other. -/
lemma parse_eq_error_iff (spaced : Spaced (Entry.object ms) document.toList)
    (plain : ∀ m ∈ ms, m.Plain) {fault : Fault} :
    parse document = .error fault ↔ ∃ front m back e, ms = front ++ m :: back ∧
      Accepted front ∧ Offends front m e ∧ fault = .unfit e := by
  obtain ⟨ps, denotes⟩ := exists_forall₂ plain
  have hfault : parse document = .error fault ↔
      ∃ e, ofValue (.object ps) = .error e ∧ fault = .unfit e := by
    rw [parse_eq_ofValue spaced plain denotes]
    cases ofValue (.object ps) <;> simp [Except.mapError, eq_comm]
  simp only [hfault, ofValue_eq_error_iff denotes]
  constructor
  · rintro ⟨e, ⟨front, m, back, hms, accepted, offends⟩, rfl⟩
    exact ⟨front, m, back, e, hms, accepted, offends, rfl⟩
  · rintro ⟨front, m, back, e, hms, accepted, offends, rfl⟩
    exact ⟨e, ⟨front, m, back, hms, accepted, offends⟩, rfl⟩

/-- An object of members is read as options exactly if its members are accepted, and then as the
options that they give, in whatever order they stand. Otherwise the fault is that of the first
member that offends: the members before it would be accepted. -/
theorem parse_object (spaced : Spaced (Entry.object ms) document.toList)
    (plain : ∀ m ∈ ms, m.Plain) :
    ((∃ o, parse document = .ok o) ↔ Accepted ms) ∧
    (∀ o, parse document = .ok o ↔ Accepted ms ∧ Gives ms o) ∧
    (∀ ms' document', ms'.Perm ms → Spaced (Entry.object ms') document'.toList →
      ∀ o, parse document' = .ok o ↔ parse document = .ok o) ∧
    ∀ fault, parse document = .error fault ↔ ∃ front m back e, ms = front ++ m :: back ∧
      Accepted front ∧ Offends front m e ∧ fault = .unfit e := by
  refine ⟨⟨?_, ?_⟩, fun o => parse_eq_ok_iff spaced plain, ?_, fun _ =>
    parse_eq_error_iff spaced plain⟩
  · rintro ⟨o, ho⟩
    exact ((parse_eq_ok_iff spaced plain).1 ho).1
  · intro accepted
    obtain ⟨ps, denotes⟩ := exists_forall₂ plain
    obtain ⟨o, hok, -⟩ := ofValue_of_accepted accepted denotes
    refine ⟨o, ?_⟩
    rw [parse_eq_ofValue spaced plain denotes, hok]
    rfl
  · intro ms' document' perm spaced' o
    have plain' : ∀ m ∈ ms', m.Plain := fun m hm => plain m (perm.mem_iff.1 hm)
    rw [parse_eq_ok_iff spaced plain, parse_eq_ok_iff spaced' plain']
    constructor
    · rintro ⟨accepted, gives⟩
      exact ⟨accepted.perm perm, gives.perm perm⟩
    · rintro ⟨accepted, gives⟩
      exact ⟨accepted.perm perm.symm, gives.perm perm.symm⟩

/-- Of three members the second is one too large, and told as a floating-point number. The third
names a field again, which is not seen. -/
theorem parse_object_of_excess :
    let choice : Entry := ⟨Field.asciiWhitespaceOnly.name.toList, .boolean true⟩
    let depth : Entry := ⟨Field.maxDepth.name.toList, .natural (2 ^ 64)⟩
    let ms : List Entry := [choice, depth, ⟨Field.maxDepth.name.toList, .null⟩]
    let document := "\x7b\"ascii_whitespace_only\":true," ++
      "\"max_depth\":18446744073709551616,\"max_depth\":null\x7d\n"
    Spaced (Entry.object ms) document.toList ∧ (∀ m ∈ ms, m.Plain) ∧
      parse document =
        .error (.unfit (.wrongKind (.number (.floating ⟨false, 2 ^ 52, 12⟩)) "usize")) := by
  intro choice depth ms document
  have htext : document.toList = (Entry.object ms).flatten ++ ['\n'] := by decide
  have spaced : Spaced (Entry.object ms) document.toList := by
    rw [htext]
    exact Json.spaced_flatten (by simp [Blank, Json.isBlank]) _
  have plain : ∀ m ∈ ms, m.Plain := by
    intro m hm
    simp only [ms, List.mem_cons, List.not_mem_nil, or_false] at hm
    obtain rfl | rfl | rfl := hm
    · exact ⟨Field.unescaped_name _, trivial⟩
    · exact ⟨Field.unescaped_name _, Leaf.plain_natural (Nat.le_refl _)⟩
    · exact ⟨Field.unescaped_name _, trivial⟩
  have accepted : Accepted [choice] :=
    accepted_concat.2 ⟨accepted_nil, List.not_mem_nil, _, rfl, .choice true⟩
  have unfit : ¬Fits .maxDepth depth.value := by
    rintro ⟨⟩
    omega
  have least : IsLeast {k | 2 ^ 64 / 10 ^ k < 2 ^ 64} 1 := by
    refine ⟨by decide, fun k hk => Nat.pos_of_ne_zero ?_⟩
    rintro rfl
    exact absurd hk (by decide)
  have denotes : depth.value.Denotes (.number (.floating ⟨false, 2 ^ 52, 12⟩)) :=
    .floating (Nat.le_refl _) least (by decide)
  have offends : Offends [choice] depth _ := .unfit (f := .maxDepth) rfl (by decide) unfit denotes
  refine ⟨spaced, plain, ?_⟩
  exact ((parse_object spaced plain).2.2.2 _).2 ⟨_, _, _, _, rfl, accepted, offends, rfl⟩

end

end NestedComment.Options
