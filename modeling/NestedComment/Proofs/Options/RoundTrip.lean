import NestedComment.Proofs.Options.Document

/-!
# Reading options back

Options are written as an object of two members (`entries`). These describe the options they are
made from (`entries_accepted`, `entries_gives`), so what is written is read back, with any blanks
around it, and no two options are written alike (`parse_render`).
-/

namespace NestedComment.Options

open Json (Blank Entry Leaf Spaced)

/-- The members that options are written with. -/
def entries (o : Options) : List Entry :=
  [⟨Field.maxDepth.name.toList, limit o.maxDepth⟩,
    ⟨Field.asciiWhitespaceOnly.name.toList, .boolean o.asciiWhitespaceOnly⟩]

/-- Options are written as the tokens of their members, with no blanks. -/
lemma render_toList (o : Options) : o.render.toList = (Entry.object o.entries).flatten := by
  obtain ⟨_ | n, _ | _⟩ := o <;>
    simp [render, entries, limit, Entry.object, Entry.tokens, Json.quote, Leaf.token]

/-- Options are written with plain members. -/
lemma entries_plain (o : Options) : ∀ m ∈ o.entries, m.Plain := by
  have hdepth : (limit o.maxDepth).Plain := by
    cases o.maxDepth with
    | none => trivial
    | some n => exact Leaf.plain_natural n.toNat_lt.le
  intro m hm
  simp only [entries, List.mem_cons, List.not_mem_nil, or_false] at hm
  obtain rfl | rfl := hm
  · exact ⟨Field.unescaped_name _, hdepth⟩
  · exact ⟨Field.unescaped_name _, trivial⟩

/-- Options are written with members that are accepted. -/
lemma entries_accepted (o : Options) : Accepted o.entries := by
  have hdepth : Fits .maxDepth (limit o.maxDepth) := by
    cases o.maxDepth with
    | none => exact .unlimited
    | some n => exact .limit n.toNat_lt
  have hfirst : Accepted [⟨Field.maxDepth.name.toList, limit o.maxDepth⟩] :=
    accepted_concat.2 ⟨accepted_nil, List.not_mem_nil, _, rfl, hdepth⟩
  exact accepted_concat.2 ⟨hfirst, by simp [Field.name], _, rfl, .choice _⟩

/-- Options are written with members that give them. -/
lemma entries_gives (o : Options) : Gives o.entries o := by
  have hne : Field.maxDepth.name.toList ≠ Field.asciiWhitespaceOnly.name.toList := by decide
  refine ⟨fun n => ?_, ?_⟩
  · cases hdepth : o.maxDepth with
    | none => simp [entries, limit, hdepth]
    | some d => simp [entries, limit, hdepth, ← UInt64.toNat_inj, @eq_comm _ n.toNat]
  · simp [entries, hne.symm, @eq_comm _ true]

/-- What options are written as is read back as the same options, with any blanks around it. So
different options are written differently. -/
theorem parse_render :
    (∀ (o : Options) (before after : List Char), Blank before → Blank after →
      parse (String.ofList before ++ o.render ++ String.ofList after) = .ok o) ∧
    Function.Injective render := by
  have hparse (o : Options) {before after : List Char} (hbefore : Blank before)
      (hafter : Blank after) :
      parse (String.ofList before ++ o.render ++ String.ofList after) = .ok o := by
    have spaced : Spaced (Entry.object o.entries)
        (String.ofList before ++ o.render ++ String.ofList after).toList := by
      rw [String.toList_append, String.toList_append, String.toList_ofList, String.toList_ofList,
        render_toList, List.append_assoc]
      exact (Json.spaced_flatten hafter _).append_left hbefore
    exact (parse_eq_ok_iff spaced o.entries_plain).2 ⟨o.entries_accepted, o.entries_gives⟩
  refine ⟨fun o before after => hparse o, fun o o' hrender => ?_⟩
  have hread := hparse o Json.blank_nil Json.blank_nil
  rw [hrender, hparse o' Json.blank_nil Json.blank_nil] at hread
  exact (Except.ok.inj hread).symm

/-- The greatest limit between blanks. -/
theorem parse_render_of_greatest :
    parse "\t\x7b\"max_depth\":18446744073709551615,\"ascii_whitespace_only\":false\x7d\r\n" =
      .ok ⟨some 18446744073709551615, false⟩ := by
  have hblank (cs : List Char) (hcs : cs.all Json.isBlank = true) : Blank cs :=
    List.all_eq_true.1 hcs
  exact parse_render.1 ⟨some 18446744073709551615, false⟩ ['\t'] ['\r', '\n'] (hblank _ rfl)
    (hblank _ rfl)

end NestedComment.Options
