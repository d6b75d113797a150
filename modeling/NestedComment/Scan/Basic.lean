import NestedComment.Host.Basic
import NestedComment.Options.Basic
import NestedComment.Scan.Body

/-!
# A scan, step by step

A scan skips blanks, takes the opener of a comment, and runs the machine of its body. Each step
depends on the host only through the code point at the cursor. `Returns` is the relation between a
state and what a scan from there comes to; it is defined for every host, also for one on which a
scan never ends.
-/

namespace NestedComment

universe u

/-- A token that was found. -/
structure Token where
  symbol : Symbol
  /-- The most comments that were open at once, the outermost included. -/
  deepest : Nat
  deriving DecidableEq

/-- What a scan comes to: a token, or the reason why there is none. -/
abbrev Verdict := Except Abstention Token

namespace Scan

/-- Where a scan is. -/
inductive Phase where
  /-- Before the comment, where blanks are skipped. -/
  | leading
  /-- After the parenthesis of the outer opener. -/
  | opening
  /-- After the star of the outer opener. -/
  | entering
  /-- Inside the comment. -/
  | body (b : Body)
  deriving DecidableEq

/-- What a scan does with the code point at the cursor, or with the end of the input. -/
def Phase.react (o : Options) : Phase → Option Char → Reaction Phase
  | .leading, some c =>
    if o.isWhitespace c then .consume true .leading
    else if c = '(' then .consume false .opening
    else .abstain (.notAComment (some c))
  | .leading, none => .abstain (.notAComment none)
  | .opening, some c =>
    if c = '*' then .consume false .entering else .abstain (.partialOpener (some c))
  | .opening, none => .abstain (.partialOpener none)
  | .entering, _ => (Body.outside.enter o.maxDepth).map .body
  | .body b, seen => (b.react o.maxDepth seen).map .body

variable {σ : Type u} [Host σ]

/-- The state after one step. -/
inductive Progress (σ : Type u) where
  | going (phase : Phase) (host : σ)
  | stopped (verdict : Verdict) (host : σ)

/-- Takes the closing parenthesis of the outermost comment and reports the token. -/
def report (h : σ) : σ :=
  Host.markEnd (Host.advance false (Host.setSymbol .comment h))

/-- Does to a host what a reaction says. -/
def perform (h : σ) : Reaction Phase → Progress σ
  | .consume skip next => .going next (Host.advance skip h)
  | .hold next => .going next h
  | .accept final => .stopped (.ok ⟨.comment, final.deepest⟩) (report h)
  | .abstain reason => .stopped (.error reason) h

/-- One step of a scan. -/
def step (o : Options) (p : Phase) (h : σ) : Progress σ :=
  perform h (p.react o (Host.peek h))

/-- A scan that goes on from phase `p` and host `h` comes to a verdict and leaves a host. -/
inductive Returns (o : Options) : Phase → σ → Verdict → σ → Prop where
  | stop {p : Phase} {h : σ} {v : Verdict} {h' : σ} :
    step o p h = .stopped v h' → Returns o p h v h'
  | go {p q : Phase} {h g : σ} {v : Verdict} {h' : σ} :
    step o p h = .going q g → Returns o q g v h' → Returns o p h v h'

end Scan

end NestedComment
