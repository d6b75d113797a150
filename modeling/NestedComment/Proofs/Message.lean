import NestedComment.Abstention
import NestedComment.Proofs.Text.Quoted

/-!
# Messages tell the reasons apart

Each kind of reason to abstain has a message of its own, told by its first character
(`head_message`). What a message says of the reason stands between two fixed texts: a code point or
the end of the input (`describe_injective`), or a number in decimal (`toString_injective`). So a
message is that of one reason only (`message_inj`).
-/

namespace NestedComment.Abstention

/-- The first character of the message of a reason. -/
def initial : Abstention → Char
  | notAComment _ => 'n'
  | partialOpener _ => '\''
  | unterminated _ => 'u'
  | depthLimit _ => 'c'

/-- A message begins with the first character of its reason. -/
lemma head_message (a : Abstention) : a.message.toList.head? = some a.initial := by
  unfold message initial
  cases a <;> simp

/-- The same messages begin with the same character. -/
lemma initial_eq_of_message {a b : Abstention} (h : a.message = b.message) :
    a.initial = b.initial := by
  have hhead := head_message a
  rw [h, head_message b] at hhead
  exact (Option.some.inj hhead).symm

/-- The end of the input is described like no code point, and no two code points are described
alike. -/
lemma describe_injective : Function.Injective describe := by
  have hnone (c : Char) : describe none ≠ describe (some c) := by
    intro h
    have hhead := congrArg (fun s => s.toList.head?) h
    simp [describe, Text.Quoted.quoteChar] at hhead
  intro found found' h
  cases found with
  | none =>
    cases found' with
    | none => rfl
    | some c' => exact absurd h (hnone c')
  | some c =>
    cases found' with
    | none => exact absurd h.symm (hnone c)
    | some c' => exact congrArg some (Text.Quoted.quoteChar_injective h)

/-- No two numbers are written alike. -/
lemma toString_injective : Function.Injective (toString : Nat → String) := by
  intro m n h
  have hdigits : Nat.toDigits 10 m = Nat.toDigits 10 n := by
    rw [← Nat.toList_repr, ← Nat.toList_repr]
    exact congrArg String.toList h
  have hread := @Nat.ofDigitChars_ten_toDigits m
  rw [hdigits, Nat.ofDigitChars_ten_toDigits] at hread
  exact hread.symm

/-- Two reasons have the same message only if they are the same reason: of the same kind, with the
same code point or none, the same depth or the same limit. -/
theorem message_inj {a b : Abstention} : a.message = b.message ↔ a = b := by
  refine ⟨fun h => ?_, fun h => by rw [h]⟩
  have hinitial := initial_eq_of_message h
  cases a <;> cases b
  case notAComment.notAComment found found' =>
    have hfound := (String.append_right_inj _).1 ((String.append_left_inj _).1 h)
    rw [describe_injective hfound]
  case partialOpener.partialOpener found found' =>
    have hfound := (String.append_right_inj _).1 ((String.append_left_inj _).1 h)
    rw [describe_injective hfound]
  case unterminated.unterminated depth depth' =>
    have hdepth := (String.append_right_inj _).1 ((String.append_left_inj _).1 h)
    rw [toString_injective hdepth]
  case depthLimit.depthLimit limit limit' =>
    have hlimit := (String.append_right_inj _).1 h
    rw [UInt64.toNat_inj.1 (toString_injective hlimit)]
  all_goals exact absurd hinitial (by simp [initial])

end NestedComment.Abstention
