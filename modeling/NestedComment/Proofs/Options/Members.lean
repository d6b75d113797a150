import Mathlib.Data.List.Nodup
import NestedComment.Options.Value
import NestedComment.Proofs.Json.Tokens

/-!
# Members of an object of options

Which members describe options (`Accepted`), which options they describe (`Gives`), and which fault
a member has behind others (`Offends`). Members are added one by one. A member that is accepted
keeps what has been read in step with what the members before it give (`Records.add`), and a member
that offends ends the reading with its fault (`Records.add_offends`). So `Records.run` and
`Records.run_offends` follow by induction on the members, and `accepted_or_offended` says that
there is nothing else.
-/

namespace NestedComment

open Json (Entry Leaf Misfit Value)

namespace Field

/-- What a value of a field has to be. -/
def kind : Field → String
  | maxDepth => Options.depthKind
  | asciiWhitespaceOnly => Options.choiceKind

/-- A field is known by its name. -/
lemma ofName?_name (f : Field) : ofName? f.name.toList = some f := by
  cases f <;> decide

/-- No field is known by another name. -/
lemma ofName?_eq_none {s : List Char} (h : ∀ f : Field, s ≠ f.name.toList) : ofName? s = none :=
  (if_neg (h maxDepth)).trans (if_neg (h asciiWhitespaceOnly))

/-- No two fields have the same name. -/
lemma name_toList_inj {f g : Field} : f.name.toList = g.name.toList ↔ f = g := by
  refine ⟨fun h => ?_, fun h => h ▸ rfl⟩
  have hsome := congrArg ofName? h
  rw [ofName?_name, ofName?_name] at hsome
  exact Option.some.inj hsome

/-- No name of a field needs escapes. -/
lemma unescaped_name (f : Field) : ∀ c ∈ f.name.toList, Json.Unescaped c := by
  cases f <;> simp [name, Json.Unescaped]

end Field

namespace Options

/-- The values that a field may have. A limit is null or a natural number below `2 ^ 64`. -/
inductive Fits : Field → Leaf → Prop where
  | unlimited : Fits .maxDepth .null
  | limit {n : Nat} : n < 2 ^ 64 → Fits .maxDepth (.natural n)
  | choice (b : Bool) : Fits .asciiWhitespaceOnly (.boolean b)

/-- Members that describe options: every name is that of a field, none is given twice, and every
value fits its field. -/
structure Accepted (ms : List Entry) : Prop where
  known : ∀ m ∈ ms, ∃ f : Field, m.name = f.name.toList
  once : (ms.map Entry.name).Nodup
  fits : ∀ m ∈ ms, ∀ f : Field, m.name = f.name.toList → Fits f m.value

/-- The options that members describe, the default where no member gives another value. -/
structure Gives (ms : List Entry) (o : Options) : Prop where
  depth : ∀ n : UInt64,
    o.maxDepth = some n ↔ ⟨Field.maxDepth.name.toList, .natural n.toNat⟩ ∈ ms
  choice : o.asciiWhitespaceOnly = true ↔
    ⟨Field.asciiWhitespaceOnly.name.toList, .boolean true⟩ ∈ ms

/-- The fault of a member behind others. Only a name that is in order makes its value matter. -/
inductive Offends (earlier : List Entry) (m : Entry) : Misfit → Prop where
  | unknown : (∀ f : Field, m.name ≠ f.name.toList) →
    Offends earlier m (.unknownField m.name Field.names)
  | again {f : Field} : m.name = f.name.toList → m.name ∈ earlier.map Entry.name →
    Offends earlier m (.duplicateField f.name)
  | unfit {f : Field} {v : Value} : m.name = f.name.toList → m.name ∉ earlier.map Entry.name →
    ¬Fits f m.value → m.value.Denotes v → Offends earlier m (.wrongKind v.found f.kind)

section

variable {ms ms' earlier : List Entry} {m : Entry} {v : Value}

/-- An object without members is accepted. -/
lemma accepted_nil : Accepted [] :=
  ⟨by simp, .nil, by simp⟩

/-- Accepted members stay so when some are left out. -/
lemma Accepted.sublist (accepted : Accepted ms) (sub : ms'.Sublist ms) : Accepted ms' :=
  ⟨fun m hm => accepted.known m (sub.subset hm), accepted.once.sublist (sub.map Entry.name),
    fun m hm => accepted.fits m (sub.subset hm)⟩

/-- The last of the members has to have the name of a field, to be the first of that name, and to
have a value that fits. -/
lemma accepted_concat : Accepted (ms ++ [m]) ↔ Accepted ms ∧ m.name ∉ ms.map Entry.name ∧
    ∃ f : Field, m.name = f.name.toList ∧ Fits f m.value := by
  have honce : ((ms ++ [m]).map Entry.name).Nodup ↔
      (ms.map Entry.name).Nodup ∧ m.name ∉ ms.map Entry.name := by
    rw [List.map_append, List.nodup_append', List.map_singleton, List.disjoint_singleton]
    exact and_congr_right fun _ => and_iff_right (List.nodup_singleton _)
  constructor
  · intro accepted
    have hlast : m ∈ ms ++ [m] := List.mem_concat_self
    obtain ⟨f, hf⟩ := accepted.known m hlast
    exact ⟨accepted.sublist (List.sublist_append_left ms [m]), (honce.1 accepted.once).2, f, hf,
      accepted.fits m hlast f hf⟩
  · rintro ⟨accepted, hnew, f, hf, fits⟩
    refine ⟨?_, honce.2 ⟨accepted.once, hnew⟩, ?_⟩
    · intro n hn
      rcases List.mem_append.1 hn with hn | hn
      · exact accepted.known n hn
      · obtain rfl := List.mem_singleton.1 hn
        exact ⟨f, hf⟩
    · intro n hn g hg
      rcases List.mem_append.1 hn with hn | hn
      · exact accepted.fits n hn g hg
      · obtain rfl := List.mem_singleton.1 hn
        obtain rfl := Field.name_toList_inj.1 (hf.symm.trans hg)
        exact fits

/-- Accepted members stay so in any order. -/
lemma Accepted.perm (accepted : Accepted ms) (perm : ms.Perm ms') :
    Accepted ms' := by
  have hmem {n : Entry} (hn : n ∈ ms') : n ∈ ms := perm.mem_iff.2 hn
  exact ⟨fun n hn => accepted.known n (hmem hn),
    (perm.map Entry.name).nodup_iff.1 accepted.once, fun n hn => accepted.fits n (hmem hn)⟩

/-- Members give the same options in any order. -/
lemma Gives.perm {o : Options} (gives : Gives ms o) (perm : ms.Perm ms') :
    Gives ms' o :=
  ⟨fun n => (gives.depth n).trans perm.mem_iff, gives.choice.trans perm.mem_iff⟩

/-- A member behind accepted ones is accepted or offends. -/
lemma accepted_or_offends (accepted : Accepted earlier) (denotes : m.value.Denotes v) :
    Accepted (earlier ++ [m]) ∨ ∃ e, Offends earlier m e := by
  by_cases hknown : ∃ f : Field, m.name = f.name.toList
  · obtain ⟨f, hf⟩ := hknown
    by_cases hagain : m.name ∈ earlier.map Entry.name
    · exact .inr ⟨_, .again hf hagain⟩
    · by_cases fits : Fits f m.value
      · exact .inl (accepted_concat.2 ⟨accepted, hagain, f, hf, fits⟩)
      · exact .inr ⟨_, .unfit hf hagain fits denotes⟩
  · exact .inr ⟨_, .unknown fun f hf => hknown ⟨f, hf⟩⟩

/-- Members are accepted, or some first member behind accepted ones offends. -/
lemma accepted_or_offended {ps : List (List Char × Value)} (accepted : Accepted earlier)
    (denotes : List.Forall₂ Entry.Denotes ms ps) :
    Accepted (earlier ++ ms) ∨ ∃ front m back e,
      ms = front ++ m :: back ∧ Accepted (earlier ++ front) ∧ Offends (earlier ++ front) m e := by
  induction denotes generalizing earlier with
  | nil => exact .inl (by rwa [List.append_nil])
  | @cons m p ms ps denotes _ ih =>
    rcases accepted_or_offends accepted denotes.value with haccepted | ⟨e, offends⟩
    · have hrest := ih haccepted
      simp only [List.append_assoc, List.singleton_append] at hrest
      rcases hrest with hrest | ⟨front, n, back, e, rfl, hfront, offends⟩
      · exact .inl hrest
      · exact .inr ⟨m :: front, n, back, e, rfl, hfront, offends⟩
    · exact .inr ⟨[], m, ms, e, rfl, by rwa [List.append_nil], by rwa [List.append_nil]⟩

end

/-- A depth limit as it is written. -/
def limit : Option UInt64 → Leaf
  | none => .null
  | some n => .natural n.toNat

/-- The value that has been read for a field, as it is written. -/
def Members.get? (r : Members) : Field → Option Leaf
  | .maxDepth => r.maxDepth.map limit
  | .asciiWhitespaceOnly => r.asciiWhitespaceOnly.map .boolean

/-- What has been read from accepted members is what they give. -/
structure Records (ms : List Entry) (r : Members) : Prop where
  accepted : Accepted ms
  given : ∀ (f : Field) (l : Leaf), r.get? f = some l ↔ ⟨f.name.toList, l⟩ ∈ ms

section

variable {r : Members} {f : Field} {l : Leaf} {v : Value} {s : List Char}

/-- A member with a name that no field has is refused. -/
lemma addMember_unknown (h : ∀ f : Field, s ≠ f.name.toList) :
    addMember r (s, v) = .error (.unknownField s Field.names) := by
  rw [addMember, Field.ofName?_eq_none h]

/-- A member for a field that has a value is refused. -/
lemma addMember_again (h : r.get? f = some l) :
    addMember r (f.name.toList, v) = .error (.duplicateField f.name) := by
  obtain ⟨depth, choice⟩ := r
  rw [addMember, Field.ofName?_name]
  cases f with
  | maxDepth =>
    obtain ⟨d, rfl, -⟩ := Option.map_eq_some_iff.1 h
    rfl
  | asciiWhitespaceOnly =>
    obtain ⟨b, rfl, -⟩ := Option.map_eq_some_iff.1 h
    rfl

/-- A member with a value that does not fit its field is refused. -/
lemma addMember_unfit (h : r.get? f = none) (unfit : ¬Fits f l) (denotes : l.Denotes v) :
    addMember r (f.name.toList, v) = .error (.wrongKind v.found f.kind) := by
  obtain ⟨depth, choice⟩ := r
  rw [addMember, Field.ofName?_name]
  cases f with
  | maxDepth =>
    obtain rfl := Option.map_eq_none_iff.1 h
    cases denotes with
    | null => exact absurd .unlimited unfit
    | natural hn => exact absurd (.limit hn) unfit
    | boolean | floating | text => rfl
  | asciiWhitespaceOnly =>
    obtain rfl := Option.map_eq_none_iff.1 h
    cases denotes with
    | boolean b => exact absurd (.choice b) unfit
    | null | natural | floating | text => rfl

/-- A value that fits is recorded for its field, and nothing else changes. -/
lemma addMember_fits (h : r.get? f = none) (fits : Fits f l) (denotes : l.Denotes v) :
    ∃ r', addMember r (f.name.toList, v) = .ok r' ∧
      ∀ g, r'.get? g = if g = f then some l else r.get? g := by
  obtain ⟨depth, choice⟩ := r
  rw [addMember, Field.ofName?_name]
  cases fits with
  | unlimited =>
    obtain rfl := Option.map_eq_none_iff.1 h
    cases denotes
    refine ⟨_, rfl, fun g => ?_⟩
    cases g <;> rfl
  | @limit n hn =>
    obtain rfl := Option.map_eq_none_iff.1 h
    cases denotes with
    | floating hge => exact absurd hn (Nat.not_lt.2 hge)
    | natural =>
      refine ⟨_, rfl, fun g => ?_⟩
      cases g with
      | maxDepth => exact congrArg (some ∘ Leaf.natural) (UInt64.toNat_ofNat_of_lt hn)
      | asciiWhitespaceOnly => rfl
  | choice b =>
    obtain rfl := Option.map_eq_none_iff.1 h
    cases denotes
    refine ⟨_, rfl, fun g => ?_⟩
    cases g <;> rfl

end

section

variable {ms earlier : List Entry} {m : Entry} {r : Members} {p : List Char × Value}
  {ps : List (List Char × Value)} {e : Misfit}

/-- Before any member nothing has been read. -/
lemma records_nil : Records [] {} := by
  refine ⟨accepted_nil, fun f l => ?_⟩
  cases f <;> simp [Members.get?]

/-- A field that no member names has no value. -/
lemma Records.get?_eq_none (records : Records earlier r) {f : Field}
    (h : f.name.toList ∉ earlier.map Entry.name) : r.get? f = none := by
  rw [Option.eq_none_iff_forall_ne_some]
  intro l hl
  exact h (List.mem_map_of_mem ((records.given f l).1 hl))

/-- A field that a member names has a value. -/
lemma Records.get?_eq_some (records : Records earlier r) {f : Field}
    (h : f.name.toList ∈ earlier.map Entry.name) : ∃ l, r.get? f = some l := by
  obtain ⟨⟨name, l⟩, hm, rfl⟩ := List.mem_map.1 h
  exact ⟨l, (records.given f l).2 hm⟩

/-- An accepted member is recorded. -/
lemma Records.add (records : Records earlier r) (accepted : Accepted (earlier ++ [m]))
    (denotes : m.Denotes p) : ∃ r', addMember r p = .ok r' ∧ Records (earlier ++ [m]) r' := by
  obtain ⟨name, l⟩ := m
  obtain ⟨s, v⟩ := p
  obtain ⟨rfl, denotes⟩ := denotes
  obtain ⟨-, hnew, f, rfl, fits⟩ := accepted_concat.1 accepted
  obtain ⟨r', hadd, hget⟩ := addMember_fits (records.get?_eq_none hnew) fits denotes
  refine ⟨r', hadd, accepted, fun g l' => ?_⟩
  rw [hget, List.mem_append, ← records.given, List.mem_singleton]
  split
  · next h =>
    subst h
    simp [records.get?_eq_none hnew, eq_comm]
  · next h => simp [h, Field.name_toList_inj]

/-- A member that offends is refused with its fault. -/
lemma Records.add_offends (records : Records earlier r) (offends : Offends earlier m e)
    (denotes : m.Denotes p) : addMember r p = .error e := by
  obtain ⟨name, l⟩ := m
  obtain ⟨s, v⟩ := p
  obtain ⟨rfl, denotes⟩ := denotes
  cases offends with
  | unknown h => exact addMember_unknown h
  | again hname hmem =>
    obtain rfl := hname
    obtain ⟨l, hl⟩ := records.get?_eq_some hmem
    exact addMember_again hl
  | unfit hname hnew unfit hv =>
    obtain rfl := hname
    obtain rfl := denotes.unique hv
    exact addMember_unfit (records.get?_eq_none hnew) unfit denotes

/-- Accepted members are recorded one behind the other. -/
lemma Records.run (records : Records earlier r) (accepted : Accepted (earlier ++ ms))
    (denotes : List.Forall₂ Entry.Denotes ms ps) :
    ∃ r', ps.foldlM addMember r = .ok r' ∧ Records (earlier ++ ms) r' := by
  induction denotes generalizing earlier r with
  | nil => exact ⟨r, rfl, by rwa [List.append_nil]⟩
  | @cons m p ms ps denotes _ ih =>
    rw [List.append_cons] at accepted ⊢
    have hnext : Accepted (earlier ++ [m]) := accepted.sublist (List.sublist_append_left _ _)
    obtain ⟨r', hadd, records⟩ := records.add hnext denotes
    obtain ⟨r'', hrun, records⟩ := ih records accepted
    refine ⟨r'', ?_, records⟩
    rw [List.foldlM_cons, hadd]
    exact hrun

/-- The first member that offends ends the reading. -/
lemma Records.run_offends {front back : List Entry} (records : Records earlier r)
    (accepted : Accepted (earlier ++ front)) (offends : Offends (earlier ++ front) m e)
    (denotes : List.Forall₂ Entry.Denotes (front ++ m :: back) ps) :
    ps.foldlM addMember r = .error e := by
  -- The members in front are recorded one by one, until the one that offends comes next.
  induction front generalizing earlier r ps with
  | nil =>
    cases denotes with
    | cons denotes _ =>
      rw [List.append_nil] at offends
      rw [List.foldlM_cons, records.add_offends offends denotes]
      rfl
  | cons n front ih =>
    rw [List.append_cons] at accepted offends
    cases denotes with
    | cons denotes hrest =>
      have hnext : Accepted (earlier ++ [n]) := accepted.sublist (List.sublist_append_left _ _)
      obtain ⟨r', hadd, records⟩ := records.add hnext denotes
      rw [List.foldlM_cons, hadd]
      exact ih records accepted offends hrest

end

section

variable {ms : List Entry} {m : Entry} {r : Members} {o : Options} {e : Misfit}
  {ps : List (List Char × Value)}

/-- Members give one set of options only. -/
lemma Gives.unique {o' : Options} (h : Gives ms o) (h' : Gives ms o') : o = o' := by
  obtain ⟨depth, choice⟩ := o
  obtain ⟨depth', choice'⟩ := o'
  congr 1
  · exact Option.ext fun n => (h.depth n).trans (h'.depth n).symm
  · exact Bool.eq_iff_iff.2 (h.choice.trans h'.choice.symm)

/-- The options that have been read are the ones that the members give. -/
lemma Records.gives (records : Records ms r) : Gives ms r.options := by
  refine ⟨fun n => ?_, ?_⟩
  · rw [← records.given]
    obtain ⟨_ | _ | d, choice⟩ := r
    · simp [Members.options, Members.get?]
    · simp [Members.options, Members.get?, limit]
    · simp [Members.options, Members.get?, limit, UInt64.toNat_inj]
  · rw [← records.given]
    obtain ⟨depth, _ | choice⟩ := r <;> simp [Members.options, Members.get?]

/-- Accepted members are read as the options that they give. -/
lemma ofValue_of_accepted (accepted : Accepted ms) (denotes : List.Forall₂ Entry.Denotes ms ps) :
    ∃ o, ofValue (.object ps) = .ok o ∧ Gives ms o := by
  obtain ⟨r, hrun, records⟩ := records_nil.run accepted denotes
  refine ⟨r.options, ?_, records.gives⟩
  rw [ofValue, hrun]
  rfl

/-- Members are refused for the first one that offends. -/
lemma ofValue_of_offends {front back : List Entry} (accepted : Accepted front)
    (offends : Offends front m e)
    (denotes : List.Forall₂ Entry.Denotes (front ++ m :: back) ps) :
    ofValue (.object ps) = .error e := by
  rw [ofValue, records_nil.run_offends accepted offends denotes]
  rfl

/-- Members describe options exactly if they are accepted, and then the options that they give. -/
theorem ofValue_eq_ok_iff (denotes : List.Forall₂ Entry.Denotes ms ps) :
    ofValue (.object ps) = .ok o ↔ Accepted ms ∧ Gives ms o := by
  constructor
  · intro hok
    rcases accepted_or_offended accepted_nil denotes with
      accepted | ⟨front, m, back, e, rfl, accepted, offends⟩
    · obtain ⟨o', hok', gives⟩ := ofValue_of_accepted accepted denotes
      obtain rfl := Except.ok.inj (hok.symm.trans hok')
      exact ⟨accepted, gives⟩
    · cases hok.symm.trans (ofValue_of_offends accepted offends denotes)
  · rintro ⟨accepted, gives⟩
    obtain ⟨o', hok, gives'⟩ := ofValue_of_accepted accepted denotes
    rw [hok, gives.unique gives']

/-- The fault of members is that of the first of them that offends. -/
theorem ofValue_eq_error_iff (denotes : List.Forall₂ Entry.Denotes ms ps) :
    ofValue (.object ps) = .error e ↔
      ∃ front m back, ms = front ++ m :: back ∧ Accepted front ∧ Offends front m e := by
  constructor
  · intro herror
    rcases accepted_or_offended accepted_nil denotes with
      accepted | ⟨front, m, back, e', rfl, accepted, offends⟩
    · obtain ⟨o, hok, -⟩ := ofValue_of_accepted accepted denotes
      cases herror.symm.trans hok
    · have herror' := ofValue_of_offends accepted offends denotes
      obtain rfl := Except.error.inj (herror.symm.trans herror')
      exact ⟨front, m, back, rfl, accepted, offends⟩
  · rintro ⟨front, m, back, rfl, accepted, offends⟩
    exact ofValue_of_offends accepted offends denotes

end

end Options

end NestedComment
