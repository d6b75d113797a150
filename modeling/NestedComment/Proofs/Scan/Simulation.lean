import Mathlib.Data.List.Forall2
import NestedComment.Host.Recorded
import NestedComment.Scan.Run

/-!
# Scans of two hosts in step

A relation between the states of two hosts is a `Simulation` if related hosts show the same code
point and every call keeps them related. A scan cannot tell such hosts apart: it comes to the same
verdict on both and leaves them related (`Simulation.run`). Neither of the hosts comes first
(`Simulation.symm`). Recording keeps a simulation (`Simulation.recorded`), so the calls made on both
hosts are the same as well.
-/

namespace NestedComment

universe u v

open Scan

/-- A relation that two hosts keep under all calls of a scan. -/
structure Simulation {σ : Type u} {τ : Type v} [Host σ] [Host τ] (R : σ → τ → Prop) : Prop where
  peek {h : σ} {g : τ} : R h g → Host.peek h = Host.peek g
  advance (skip : Bool) {h : σ} {g : τ} :
    R h g → Host.eof h = false → R (Host.advance skip h) (Host.advance skip g)
  markEnd {h : σ} {g : τ} : R h g → R (Host.markEnd h) (Host.markEnd g)
  setSymbol (s : Symbol) {h : σ} {g : τ} : R h g → R (Host.setSymbol s h) (Host.setSymbol s g)
  /-- Naming the symbol does not move the host. -/
  eof_setSymbol (s : Symbol) {h : σ} {g : τ} : R h g → Host.eof (Host.setSymbol s h) = Host.eof h

/-- Steps of two hosts that come to the same phase or the same verdict. -/
inductive Scan.Progress.Related {σ : Type u} {τ : Type v} (R : σ → τ → Prop) :
    Progress σ → Progress τ → Prop where
  | going {p : Phase} {h : σ} {g : τ} : R h g → Related R (.going p h) (.going p g)
  | stopped {v : Verdict} {h : σ} {g : τ} : R h g → Related R (.stopped v h) (.stopped v g)

namespace Simulation

section

variable {σ : Type u} {τ : Type v} [Host σ] [Host τ] {R : σ → τ → Prop} {h : σ} {g : τ}

/-- Neither host of a simulation comes first. -/
lemma symm (sim : Simulation R) : Simulation fun g h => R h g where
  peek related := (sim.peek related).symm
  advance skip _ _ related he :=
    sim.advance skip related ((Host.eof_eq_of_peek_eq (sim.peek related)).trans he)
  markEnd related := sim.markEnd related
  setSymbol s _ _ related := sim.setSymbol s related
  eof_setSymbol s g h related := by
    calc Host.eof (Host.setSymbol s g)
      _ = Host.eof (Host.setSymbol s h) :=
        (Host.eof_eq_of_peek_eq (sim.peek (sim.setSymbol s related))).symm
      _ = Host.eof h := sim.eof_setSymbol s related
      _ = Host.eof g := Host.eof_eq_of_peek_eq (sim.peek related)

/-- Hosts that are related stay so when both report a token. -/
lemma report (sim : Simulation R) (related : R h g) (he : Host.eof h = false) :
    R (report h) (report g) := by
  have named := sim.setSymbol .comment related
  have moved := sim.advance false named ((sim.eof_setSymbol .comment related).trans he)
  exact sim.markEnd moved

/-- A step cannot tell related hosts apart. -/
lemma step (sim : Simulation R) (o : Options) (p : Phase) (related : R h g) :
    Progress.Related R (step o p h) (step o p g) := by
  rw [Scan.step, Scan.step, ← sim.peek related]
  cases hr : p.react o (Host.peek h) with
  | consume skip next =>
    obtain ⟨c, hc⟩ := Phase.exists_of_react hr
    exact .going (sim.advance skip related (Host.eof_eq_false_of_peek hc))
  | hold next => exact .going related
  | accept final =>
    have hc := Phase.seen_of_accept hr
    exact .stopped (sim.report related (Host.eof_eq_false_of_peek hc))
  | abstain reason => exact .stopped related

/-- A scan that comes to a verdict on one host does so on a related one. -/
theorem returns (sim : Simulation R) {o : Options} {p : Phase} {v : Verdict} {h' : σ}
    (related : R h g) (run : Returns o p h v h') : ∃ g', Returns o p g v g' ∧ R h' g' := by
  induction run generalizing g with
  | @stop p h v h' hs =>
    have both := sim.step o p related
    generalize hg : Scan.step o p g = last at both
    rw [hs] at both
    cases both with
    | stopped related' => exact ⟨_, .stop hg, related'⟩
  | @go p q h k v h' hs _ ih =>
    have both := sim.step o p related
    generalize hg : Scan.step o p g = next at both
    rw [hs] at both
    cases both with
    | going related' =>
      obtain ⟨g', returned, related''⟩ := ih related'
      exact ⟨g', .go hg returned, related''⟩

end

section

variable {σ : Type u} {τ : Type v} {R : σ → τ → Prop}

/-- A scan comes to the same verdict on related hosts and leaves them related. -/
theorem run [BoundedHost σ] [BoundedHost τ] (sim : Simulation R) (o : Options) (p : Phase) {h : σ}
    {g : τ} (related : R h g) :
    (Scan.run o p h).1 = (Scan.run o p g).1 ∧ R (Scan.run o p h).2 (Scan.run o p g).2 := by
  -- Both hosts take the same steps, so the run of one is followed on the other.
  fun_induction Scan.run o p h generalizing g with
  | case1 p h v h' hs =>
    have both := sim.step o p related
    generalize hg : Scan.step o p g = last at both
    rw [hs] at both
    cases both with
    | stopped related' =>
      rw [run_of_stopped hg]
      exact ⟨rfl, related'⟩
  | case2 p h q h' hs ih =>
    have both := sim.step o p related
    generalize hg : Scan.step o p g = next at both
    rw [hs] at both
    cases both with
    | going related' =>
      rw [run_of_going hg]
      exact ih related'

end

end Simulation

/-- The same call made on two hosts that are related. -/
structure Call.Related {σ : Type u} {τ : Type v} (R : σ → τ → Prop) (a : Call σ) (b : Call τ) :
    Prop where
  action : a.action = b.action
  before : R a.before b.before

/-- Hosts that are related now and were related before every call that was recorded. -/
structure Recorded.Related {σ : Type u} {τ : Type v} (R : σ → τ → Prop) (r : Recorded σ)
    (s : Recorded τ) : Prop where
  host : R r.host s.host
  calls : List.Forall₂ (Call.Related R) r.calls.toList s.calls.toList

section

variable {σ : Type u} {τ : Type v} {R : σ → τ → Prop} {r : Recorded σ} {s : Recorded τ} {h : σ}
  {g : τ}

/-- Hosts that are related are so before any call is recorded. -/
lemma Recorded.Related.start (related : R h g) :
    Recorded.Related R (Recorded.start h) (Recorded.start g) :=
  ⟨related, .nil⟩

/-- Hosts that are related stay so when the same call is recorded of both. -/
lemma Recorded.Related.record (both : Recorded.Related R r s) (action : Action) (related : R h g) :
    Recorded.Related R (r.record action h) (s.record action g) := by
  refine ⟨related, ?_⟩
  rw [Recorded.record, Recorded.record, Array.toList_push, Array.toList_push]
  exact List.rel_append both.calls (.cons ⟨rfl, both.host⟩ .nil)

/-- Recording keeps a simulation. -/
theorem Simulation.recorded [Host σ] [Host τ] (sim : Simulation R) :
    Simulation (Recorded.Related R) where
  peek both := sim.peek both.host
  advance skip _ _ both he := both.record (.advance skip) (sim.advance skip both.host he)
  markEnd both := both.record .markEnd (sim.markEnd both.host)
  setSymbol s _ _ both := both.record (.setSymbol s) (sim.setSymbol s both.host)
  eof_setSymbol s _ _ both := sim.eof_setSymbol s both.host

end

end NestedComment
