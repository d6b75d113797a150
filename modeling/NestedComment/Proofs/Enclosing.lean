import NestedComment.Proofs.Cursor.Comment
import NestedComment.Proofs.Scan.Nesting

/-!
# Comments inside comments

To put a comment into another one is to run its machine with one more comment open. The machine does
the same there (`after_within`), so a text that ends the outermost comment on its own closes one
level there (`Completes.passes_within`). Only the star of the opener makes a difference: inside a
comment it may start a closer, so a comment that goes on with a parenthesis is closed at once.
`nests_of_completes` covers all other comments, and `scan_enclosed` says what becomes of both.
-/

namespace NestedComment

open Scan

namespace Scan.Body

/-- The state inside `depth` more comments, where `deepest` have been open at once before. -/
def within (depth deepest : Nat) (b : Body) : Body :=
  ⟨b.half, b.depth + depth, max deepest (b.deepest + depth)⟩

section

variable {limit limit' : Option UInt64} {b : Body} {c : Char} {cs ds : List Char} {t : Token}
  {depth deepest k : Nat}

/-- No code point makes a comment less deep. -/
lemma deepest_le_after (b : Body) (c : Char) : b.deepest ≤ (b.after c).deepest := by
  rw [after]
  split
  · exact le_max_left _ _
  · split
    · exact le_rfl
    · exact le_rfl

/-- Behind a code point that does not end the comment some comment is still open. -/
lemma depth_after_pos (hpos : 0 < b.depth) (hends : ¬b.Ends c) : 0 < (b.after c).depth := by
  by_cases hopens : b.Opens c
  · rw [after_of_opens hopens]
    exact Nat.succ_pos _
  · by_cases hcloses : b.Closes c
    · have htwo : ¬b.depth ≤ 1 := fun hle => hends ⟨hcloses, hle⟩
      rw [after_of_closes hcloses]
      exact Nat.sub_pos_of_lt (not_le.1 htwo)
    · rw [after_of_not hopens hcloses]
      exact hpos

/-- Inside more comments the machine does the same, as long as its own comment is open. -/
lemma after_within (hends : ¬b.Ends c) :
    (b.within depth deepest).after c = (b.after c).within depth deepest := by
  by_cases hopens : b.Opens c
  · have hopens' : (b.within depth deepest).Opens c := hopens
    have hdepth : b.depth + depth + 1 = b.depth + 1 + depth := Nat.add_right_comm ..
    have hdeepest : max (max deepest (b.deepest + depth)) (b.depth + depth + 1) =
        max deepest (max b.deepest (b.depth + 1) + depth) := by omega
    rw [after_of_opens hopens, after_of_opens hopens']
    exact congrArg₂ (Body.mk .closer) hdepth hdeepest
  · by_cases hcloses : b.Closes c
    · have hcloses' : (b.within depth deepest).Closes c := hcloses
      have htwo : ¬b.depth ≤ 1 := fun hle => hends ⟨hcloses, hle⟩
      have hdepth : b.depth + depth - 1 = b.depth - 1 + depth := by omega
      rw [after_of_closes hcloses, after_of_closes hcloses']
      exact congrArg₂ (Body.mk .neither) hdepth rfl
    · have hopens' : ¬(b.within depth deepest).Opens c := hopens
      have hcloses' : ¬(b.within depth deepest).Closes c := hcloses
      rw [after_of_not hopens hcloses, after_of_not hopens' hcloses']
      rfl

/-- Inside more comments no code point ends the outermost one, and none is one too many if the limit
allows the depth behind it. -/
lemma passes_one_within (deepest : Nat) (hpos : 0 < b.depth) (hdepth : 0 < depth)
    (hlimit : ∀ l ∈ limit, (b.after c).deepest + depth ≤ l.toNat) :
    ¬(b.within depth deepest).Ends c ∧ ¬(b.within depth deepest).Overflows limit c := by
  refine ⟨?_, ?_⟩
  · rintro ⟨-, hle⟩
    have hle : b.depth + depth ≤ 1 := hle
    omega
  · rintro ⟨hopens, l, hl, hle⟩
    have hopens : b.Opens c := hopens
    have hle : l.toNat ≤ b.depth + depth := hle
    have hroom := hlimit l hl
    rw [after_of_opens hopens] at hroom
    have hroom : max b.deepest (b.depth + 1) + depth ≤ l.toNat := hroom
    omega

/-- A token is as deep as any comment on the way to its end. -/
lemma Completes.deepest_le (completes : b.Completes limit cs t) : b.deepest ≤ t.deepest := by
  induction completes with
  | last _ => exact le_rfl
  | cons _ _ _ ih => exact (deepest_le_after _ _).trans ih

/-- A text that ends a comment on its own closes it inside more of them. -/
theorem Completes.passes_within (completes : b.Completes limit cs t) (deepest : Nat)
    (hpos : 0 < b.depth) (hdepth : 0 < depth) (hlimit : ∀ l ∈ limit', t.deepest + depth ≤ l.toNat) :
    (b.within depth deepest).Passes limit' cs ∧
      (b.within depth deepest).trail cs = ⟨.neither, depth, max deepest (t.deepest + depth)⟩ := by
  induction completes with
  | @last b c hends =>
    obtain ⟨hcloses, hle⟩ := hends
    have hcloses' : (b.within depth deepest).Closes c := hcloses
    have hone : b.depth + depth - 1 = depth := by omega
    have hsame : (b.after c).deepest = b.deepest := by rw [after_of_closes hcloses]
    obtain ⟨hends', hover'⟩ := passes_one_within deepest (c := c) hpos hdepth
      fun l hl => hsame ▸ hlimit l hl
    refine ⟨⟨hends', hover', trivial⟩, ?_⟩
    rw [trail_cons, trail_nil, after_of_closes hcloses']
    exact congrArg₂ (Body.mk .neither) hone rfl
  | @cons b c cs t hends hover completes ih =>
    have hle := completes.deepest_le
    obtain ⟨hends', hover'⟩ := passes_one_within deepest (c := c) hpos hdepth
      fun l hl => (Nat.add_le_add_right hle depth).trans (hlimit l hl)
    obtain ⟨hpasses, htrail⟩ := ih (depth_after_pos hpos hends) hlimit
    rw [← after_within hends] at hpasses htrail
    exact ⟨⟨hends', hover', hpasses⟩, htrail⟩

/-- Where more have been open at once before, a text ends the same comment. -/
lemma Completes.raise (completes : b.Completes limit cs t) (deepest : Nat) :
    (b.within 0 deepest).Completes limit cs ⟨.comment, max deepest t.deepest⟩ := by
  induction completes with
  | last hends => exact .last hends
  | cons hends hover _ ih =>
    refine .cons hends hover ?_
    rw [after_within hends]
    exact ih

/-- A text that is passed may stand before one that ends the comment. -/
lemma Completes.prepend (hpasses : b.Passes limit cs)
    (completes : (b.trail cs).Completes limit ds t) : b.Completes limit (cs ++ ds) t := by
  induction cs generalizing b with
  | nil => exact completes
  | cons c cs ih => exact .cons hpasses.1 hpasses.2.1 (ih hpasses.2.2 completes)

/-- The closer behind a text that nests ends the outermost comment. -/
lemma Nests.completes (settled : b.Settled) (hdepth : b.depth ≤ 1) (nests : b.Nests limit cs k) :
    b.Completes limit (cs ++ ['*', ')']) ⟨.comment, max b.deepest (b.depth + k)⟩ := by
  obtain ⟨hstar, htrail⟩ := (nests.settled settled).star limit
  have hends : ((b.trail cs).trail ['*']).Ends ')' := by
    rw [htrail]
    exact ⟨⟨rfl, rfl⟩, nests.depth_eq.trans_le hdepth⟩
  have hdeepest : ((b.trail cs).trail ['*']).deepest = max b.deepest (b.depth + k) := by
    rw [htrail, ← nests.deepest_eq]
  have last : ((b.trail cs).trail ['*']).Completes limit [')'] _ := .last hends
  rw [hdeepest] at last
  exact .prepend nests.passes (.prepend hstar last)

/-- Behind the first code point of a comment its star can start no closer any more. -/
lemma inside_after (c : Char) : inside.after c = ⟨halfOf c, 1, 1⟩ :=
  after_of_not (fun hopens => absurd hopens.1 Half.noConfusion)
    fun hcloses => absurd hcloses.1 Half.noConfusion

/-- Inside another comment that is so from the first code point on, but for a parenthesis. -/
lemma opened_after (hparen : c ≠ ')') :
    b.opened.after c = (inside.after c).within b.depth b.deepest := by
  have hopens : ¬b.opened.Opens c := fun hopens => absurd hopens.1 Half.noConfusion
  have hcloses : ¬b.opened.Closes c := fun hcloses => hparen hcloses.2
  rw [after_of_not hopens hcloses, inside_after, within, Nat.add_comm 1 b.depth]
  rfl

/-- A comment nests in another one, unless its body starts with a parenthesis. -/
theorem nests_of_completes (settled : b.Settled) (completes : inside.Completes limit cs t)
    (hparen : cs.head? ≠ some ')') (hlimit : ∀ l ∈ limit', t.deepest + b.depth ≤ l.toNat) :
    b.Nests limit' ('(' :: '*' :: cs) t.deepest := by
  have hone : 1 ≤ t.deepest := completes.deepest_le
  have hforbids : ¬Forbids limit' b.depth := by
    rintro ⟨l, hl, hle⟩
    have hroom := hlimit l hl
    omega
  obtain ⟨hopener, hopened⟩ := settled.opener hforbids
  cases completes with
  | last hends => exact absurd hends.1.1 Half.noConfusion
  | @cons _ c cs _ hends hover completes =>
    have hc : c ≠ ')' := fun e => hparen (congrArg some e)
    have hpos : 0 < (inside.after c).depth := depth_after_pos Nat.one_pos hends
    obtain ⟨hpasses, htrail⟩ := completes.passes_within b.deepest hpos settled.depth_pos hlimit
    rw [← opened_after hc] at hpasses htrail
    have hsplit : '(' :: '*' :: c :: cs = ['(', '*'] ++ ([c] ++ cs) := rfl
    have hall : b.trail ('(' :: '*' :: c :: cs) =
        ⟨.neither, b.depth, max b.deepest (t.deepest + b.depth)⟩ := by
      rw [hsplit, trail_append, hopened]
      exact htrail
    refine ⟨?_, ?_, ?_, ?_⟩
    · rw [hsplit, passes_append, hopened]
      refine ⟨hopener, ?_, ?_, hpasses⟩
      · exact fun hends => hc hends.1.2
      · exact fun hover => absurd hover.1.1 Half.noConfusion
    · rw [hall]
      exact Half.noConfusion
    · rw [hall]
    · rw [hall, Nat.add_comm]

/-- The star of an opener starts the closer of its own level if a parenthesis follows. -/
lemma Settled.shut (settled : b.Settled) (hlimit : ¬Forbids limit b.depth) :
    b.Passes limit ['(', '*', ')'] ∧
      b.trail ['(', '*', ')'] = ⟨.neither, b.depth, max b.deepest (b.depth + 1)⟩ := by
  obtain ⟨hopener, hopened⟩ := settled.opener hlimit
  have hcloses : b.opened.Closes ')' := ⟨rfl, rfl⟩
  have hends : ¬b.opened.Ends ')' := by
    rintro ⟨-, hle⟩
    exact absurd settled.depth_pos (not_lt.2 (Nat.le_of_succ_le_succ hle))
  have hover : ¬b.opened.Overflows limit ')' := fun hover => absurd hover.1.1 Half.noConfusion
  rw [show ['(', '*', ')'] = ['(', '*'] ++ [')'] from rfl, passes_append, trail_append, hopened,
    trail_cons, trail_nil, after_of_closes hcloses]
  exact ⟨⟨hopener, hends, hover, trivial⟩, rfl⟩

/-- A text without any part of a delimiter leaves the outermost comment as it is. -/
lemma trail_inside_of_inert (hcs : ∀ c ∈ cs, Inert c) : inside.trail cs = inside := by
  rcases eq_or_ne cs [] with rfl | hne
  · rfl
  · exact trail_of_inert hcs hne

/-- Behind a level that is closed at once a text ends the comment around that level as it would end
its own. -/
lemma completes_of_shut (hlimit : ¬Forbids limit 1)
    (completes : inside.Completes limit (')' :: cs) t) :
    inside.Completes limit ('(' :: '*' :: ')' :: cs) ⟨.comment, max 2 t.deepest⟩ := by
  obtain ⟨hpasses, htrail⟩ := settled_inside.shut hlimit
  cases completes with
  | last hends => exact absurd hends.1.1 Half.noConfusion
  | cons hends hover completes =>
    have hsame : (inside.after ')').within 0 2 = inside.trail ['(', '*', ')'] := by
      rw [htrail, inside_after]
      rfl
    have completes' := completes.raise 2
    rw [hsame] at completes'
    exact .prepend hpasses completes'

end

end Scan.Body

section

variable {o : Options} {c x y tail : List UInt8} {t : Token} {d : Cursor}

/-- Inside a comment the first three of these bytes open a level and close it again. -/
def Shut (c : List UInt8) : Prop := [0x28, 0x2A, 0x29] <+: c

instance : DecidablePred Shut := fun c => inferInstanceAs (Decidable ([0x28, 0x2A, 0x29] <+: c))

/-- A comment is shut exactly if a closing parenthesis follows its opener. -/
lemma shut_iff {body : List UInt8} :
    Shut (0x28 :: 0x2A :: body) ↔ (Octets.codePoints body).head? = some ')' := by
  rw [Shut, List.cons_prefix_cons, List.cons_prefix_cons, Octets.codePoints, List.head?_map]
  cases body with
  | nil => simp
  | cons b body =>
    have hsame : 0x29 = b ↔ some (Octets.codePoint b) = some ')' :=
      ⟨fun e => e ▸ rfl, fun e => (Octets.codePoint_injective (Option.some.inj e)).symm⟩
    simpa [List.cons_prefix_cons] using hsame

/-- Any other comment may stand in a comment. -/
lemma IsComment.enclosed (comment : IsComment o c t) (hx : Octets.Inert x) (hy : Octets.Inert y)
    (hopen : ¬Shut c) (hlimit : ∀ l ∈ o.maxDepth, t.deepest < l.toNat) :
    IsComment o (Check.opener ++ x ++ c ++ y ++ Check.closer) ⟨.comment, t.deepest + 1⟩ := by
  obtain @⟨body, _, hforbids, completes⟩ := comment
  have first : Body.inside.Nests o.maxDepth (Octets.codePoints x) 0 :=
    Body.settled_inside.nests_of_inert hx.codePoints
  have hroom : ∀ l ∈ o.maxDepth,
      t.deepest + (Body.inside.trail (Octets.codePoints x)).depth ≤ l.toNat := by
    rw [first.depth_eq]
    exact hlimit
  have inner := Body.nests_of_completes (first.settled Body.settled_inside) completes
    (mt shut_iff.2 hopen) hroom
  have both := first.append inner
  have last : Body.Nests o.maxDepth _ (Octets.codePoints y) 0 :=
    (both.settled Body.settled_inside).nests_of_inert hy.codePoints
  have completes' := (both.append last).completes Body.settled_inside le_rfl
  have htext : Octets.codePoints (x ++ 0x28 :: 0x2A :: body ++ y ++ Check.closer) =
      Octets.codePoints x ++ '(' :: '*' :: Octets.codePoints body ++ Octets.codePoints y ++
        ['*', ')'] := by
    simp only [Octets.codePoints_append]
    rfl
  have hdeepest : max Body.inside.deepest (Body.inside.depth + max (max 0 t.deepest) 0) =
      t.deepest + 1 := by
    show max 1 (1 + max (max 0 t.deepest) 0) = t.deepest + 1
    omega
  rw [← htext, hdeepest] at completes'
  exact .intro hforbids completes'

/-- A comment that starts so ends the comment around it. -/
lemma IsComment.shut (comment : IsComment o c t) (hx : Octets.Inert x) (hshut : Shut c)
    (hlimit : ∀ l ∈ o.maxDepth, t.deepest < l.toNat) :
    IsComment o (Check.opener ++ x ++ c) ⟨.comment, max 2 t.deepest⟩ := by
  obtain @⟨body, _, hforbids, completes⟩ := comment
  obtain ⟨cs, hcs⟩ := List.head?_eq_some_iff.1 (shut_iff.1 hshut)
  have hone : 1 ≤ t.deepest := completes.deepest_le
  have htwo : ¬Body.Forbids o.maxDepth 1 := by
    rintro ⟨l, hl, hle⟩
    have hroom := hlimit l hl
    omega
  rw [hcs] at completes
  have inner := Body.completes_of_shut htwo completes
  rw [← Body.trail_inside_of_inert hx.codePoints, ← hcs] at inner
  have completes' := inner.prepend (Body.passes_of_inert hx.codePoints)
  have htext : Octets.codePoints (x ++ 0x28 :: 0x2A :: body) =
      Octets.codePoints x ++ '(' :: '*' :: Octets.codePoints body := Octets.codePoints_append _ _
  rw [← htext] at completes'
  exact .intro hforbids completes'

/-- A comment at the start of an input is found, whatever follows it. -/
lemma scan_of_isComment_append (comment : IsComment o c t) (tail : List UInt8) :
    ∃ d, scan o (Cursor.ofInput (c ++ tail)) = (.ok t, d) ∧ d.Holds 0 c := by
  have hws : ∀ w ∈ ([] : List Char), o.isWhitespace w := by
    intro w hw
    cases hw
  exact Cursor.scan_of_isComment (Nat.zero_le _) rfl hws comment

/-- What becomes of a comment that is put into a comment, with texts around it that have no part of
a delimiter. All of it is one comment, a level deeper, unless the inner comment starts with a level
that is closed at once: then the outer comment ends where the inner one ends. -/
theorem scan_enclosed {c x y : List UInt8} {t : Token} {d : Cursor}
    (hs : scan {} (Cursor.ofInput c) = (.ok t, d)) (htoken : d.token = .ok (some c))
    (hx : Octets.Inert x) (hy : Octets.Inert y) (tail : List UInt8) :
    let whole := Check.opener ++ x ++ c ++ y ++ Check.closer
    (¬Shut c → ∃ e, scan {} (Cursor.ofInput (whole ++ tail)) = (.ok ⟨.comment, t.deepest + 1⟩, e) ∧
      e.Holds 0 whole) ∧
    (Shut c → ∃ e, scan {} (Cursor.ofInput (whole ++ tail)) = (.ok ⟨.comment, max 2 t.deepest⟩, e) ∧
      e.Holds 0 (Check.opener ++ x ++ c)) := by
  intro whole
  have comment := Cursor.isComment_of_token hs htoken
  have hlimit : ∀ l ∈ ({} : Options).maxDepth, t.deepest < l.toNat := by
    rintro l ⟨⟩
  refine ⟨fun hopen => ?_, fun hshut => ?_⟩
  · exact scan_of_isComment_append (comment.enclosed hx hy hopen hlimit) tail
  · have hsplit : whole ++ tail = (Check.opener ++ x ++ c) ++ (y ++ Check.closer ++ tail) := by
      simp only [whole, List.append_assoc]
    rw [hsplit]
    exact scan_of_isComment_append (comment.shut hx hshut hlimit) _

/-- A comment with a malformed byte, and one that starts with a level that is closed at once, each
put into a comment between the two bytes of a code point. -/
theorem scan_enclosed_of_split_char :
    let inner : List UInt8 := [0x28, 0x2A, 0xE2, 0x28, 0x2A, 0x29, 0x2A, 0x29]
    let shut : List UInt8 := [0x28, 0x2A, 0x29, 0x2A, 0x29]
    let d := (scan {} (Cursor.ofInput inner)).2
    let e := (scan {} (Cursor.ofInput shut)).2
    let around (c : List UInt8) := Check.opener ++ [0xC3] ++ c ++ [0xA9] ++ Check.closer
    (scan {} (Cursor.ofInput inner) = (.ok ⟨.comment, 2⟩, d) ∧ d.token = .ok (some inner)) ∧
    (scan {} (Cursor.ofInput shut) = (.ok ⟨.comment, 1⟩, e) ∧ e.token = .ok (some shut)) ∧
    (Octets.Inert [0xC3] ∧ Octets.Inert [0xA9]) ∧
    (∃ f, scan {} (Cursor.ofInput (around inner ++ [0x29])) = (.ok ⟨.comment, 3⟩, f) ∧
      f.Holds 0 (around inner)) ∧
    ∃ f, scan {} (Cursor.ofInput (around shut ++ [0x29])) = (.ok ⟨.comment, 2⟩, f) ∧
      f.Holds 0 (Check.opener ++ [0xC3] ++ shut) := by
  intro inner shut d e around
  have hd : scan {} (Cursor.ofInput inner) = (.ok ⟨.comment, 2⟩, d) :=
    Prod.ext (by decide +kernel) rfl
  have he : scan {} (Cursor.ofInput shut) = (.ok ⟨.comment, 1⟩, e) :=
    Prod.ext (by decide +kernel) rfl
  have hinner : d.token = .ok (some inner) := by decide +kernel
  have hshut : e.token = .ok (some shut) := by decide +kernel
  have hx : Octets.Inert [0xC3] := by simp [Octets.Inert]
  have hy : Octets.Inert [0xA9] := by simp [Octets.Inert]
  refine ⟨⟨hd, hinner⟩, ⟨he, hshut⟩, ⟨hx, hy⟩, ?_, ?_⟩
  · exact (scan_enclosed hd hinner hx hy [0x29]).1 (by decide)
  · exact (scan_enclosed he hshut hx hy [0x29]).2 (by decide)

end

end NestedComment
