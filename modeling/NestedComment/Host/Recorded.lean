import NestedComment.Host.Basic

/-!
# Recorded hosts

A host together with the calls made on it, each with the state it was made in. Recording changes
nothing for the one who calls: `Recorded` answers every question as the host inside does.
-/

namespace NestedComment

universe u

/-- What a call does to a host. -/
inductive Action where
  | advance (skip : Bool)
  | setSymbol (symbol : Symbol)
  | markEnd
  deriving DecidableEq

/-- A call and the state of the host before it. -/
structure Call (σ : Type u) where
  action : Action
  before : σ

/-- A host and the calls made on it so far, oldest first. -/
structure Recorded (σ : Type u) where
  host : σ
  calls : Array (Call σ)

namespace Recorded

variable {σ : Type u}

/-- A host on which no call has been recorded. -/
def start (h : σ) : Recorded σ := ⟨h, #[]⟩

/-- The state after one more call. -/
def record (r : Recorded σ) (action : Action) (after : σ) : Recorded σ :=
  ⟨after, r.calls.push ⟨action, r.host⟩⟩

instance [Host σ] : Host (Recorded σ) where
  lookahead r := Host.lookahead r.host
  eof r := Host.eof r.host
  advance skip r := r.record (.advance skip) (Host.advance skip r.host)
  markEnd r := r.record .markEnd (Host.markEnd r.host)
  setSymbol s r := r.record (.setSymbol s) (Host.setSymbol s r.host)

instance [BoundedHost σ] : BoundedHost (Recorded σ) where
  size r := BoundedHost.size r.host
  size_advance_lt skip r h := BoundedHost.size_advance_lt skip r.host h

end Recorded

end NestedComment
