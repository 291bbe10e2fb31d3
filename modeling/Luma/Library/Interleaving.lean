-- SUMMARY: Calls of many threads interleaved over a shared state, with invariant, balance and termination rules.
import Mathlib.Algebra.BigOperators.Group.Multiset.Basic
import Mathlib.Logic.Relation
import Mathlib.Tactic.Abel
import Mathlib.Tactic.Common

/-! # Interleavings

Any number of calls in progress take turns on a shared state. Which thread makes
a call does not matter, so the calls in progress are a multiset; one atomic step
of a call replaces it by what is left of it, and by the calls it wakes. New calls
arrive at any time. -/

namespace Interleaving

/-- A shared state and the calls in progress. -/
structure Config (σ κ : Type) where
  shared : σ
  calls : Multiset κ

/-- What one atomic step of a call does, and which calls may arrive. -/
structure System (σ κ : Type) where
  Executes : σ → κ → σ → Multiset κ → Prop
  Arrives : σ → σ → Multiset κ → Prop

namespace System

variable {σ κ : Type} {sys : System σ κ}

/-- One step of an interleaving. -/
inductive Step (sys : System σ κ) : Config σ κ → Config σ κ → Prop where
  | execute {s s' : σ} {k : κ} {next rest : Multiset κ} (h : sys.Executes s k s' next) :
      Step sys ⟨s, k ::ₘ rest⟩ ⟨s', next + rest⟩
  | arrive {s s' : σ} {new rest : Multiset κ} (h : sys.Arrives s s' new) :
      Step sys ⟨s, rest⟩ ⟨s', new + rest⟩

/-- The configurations that some interleaving leads to. -/
def Reachable (sys : System σ κ) : Config σ κ → Config σ κ → Prop := Relation.ReflTransGen sys.Step

theorem Reachable.refl {c : Config σ κ} : sys.Reachable c c := Relation.ReflTransGen.refl

theorem Reachable.tail {a b c : Config σ κ} (h : sys.Reachable a b) (hstep : sys.Step b c) :
    sys.Reachable a c := Relation.ReflTransGen.tail h hstep

theorem Reachable.trans {a b c : Config σ κ} (h : sys.Reachable a b) (h' : sys.Reachable b c) :
    sys.Reachable a c := Relation.ReflTransGen.trans h h'

/-- A call that is in progress takes a step. -/
theorem Reachable.execute {a : Config σ κ} {s s' : σ} {k : κ} {calls next rest : Multiset κ}
    (h : sys.Reachable a ⟨s, calls⟩) (hcalls : calls = k ::ₘ rest) (hexec : sys.Executes s k s' next) :
    sys.Reachable a ⟨s', next + rest⟩ := by
  subst hcalls
  exact h.tail (.execute hexec)

theorem Reachable.arrive {a : Config σ κ} {s s' : σ} {calls new : Multiset κ}
    (h : sys.Reachable a ⟨s, calls⟩) (harrive : sys.Arrives s s' new) :
    sys.Reachable a ⟨s', new + calls⟩ :=
  h.tail (.arrive harrive)

/-- A call goes on without waking another. -/
theorem Reachable.advance {a : Config σ κ} {s s' : σ} {k k' : κ} {rest : Multiset κ}
    (h : sys.Reachable a ⟨s, k ::ₘ rest⟩) (hexec : sys.Executes s k s' {k'}) :
    sys.Reachable a ⟨s', k' ::ₘ rest⟩ := by
  rw [← Multiset.singleton_add]
  exact h.execute rfl hexec

theorem Reachable.swap {a : Config σ κ} {s : σ} {j k : κ} {rest : Multiset κ}
    (h : sys.Reachable a ⟨s, j ::ₘ k ::ₘ rest⟩) : sys.Reachable a ⟨s, k ::ₘ j ::ₘ rest⟩ :=
  Multiset.cons_swap j k rest ▸ h

theorem Reachable.finish {a : Config σ κ} {s s' : σ} {k : κ} {rest : Multiset κ}
    (h : sys.Reachable a ⟨s, k ::ₘ rest⟩) (hexec : sys.Executes s k s' 0) : sys.Reachable a ⟨s', rest⟩ := by
  rw [← Multiset.zero_add rest]
  exact h.execute rfl hexec

/-! ## Invariants -/

/-- What every step of a call and every arrival preserves. -/
structure Invariant (sys : System σ κ) (P : σ → Multiset κ → Prop) : Prop where
  execute {s s' : σ} {k : κ} {next rest : Multiset κ} (h : sys.Executes s k s' next)
    (hP : P s (k ::ₘ rest)) : P s' (next + rest)
  arrive {s s' : σ} {new rest : Multiset κ} (h : sys.Arrives s s' new) (hP : P s rest) :
    P s' (new + rest)

theorem Invariant.reachable {P : σ → Multiset κ → Prop} (h : sys.Invariant P) {a c : Config σ κ}
    (hreach : sys.Reachable a c) (ha : P a.shared a.calls) : P c.shared c.calls := by
  induction hreach with
  | refl => exact ha
  | tail _ hstep ih =>
    cases hstep with
    | execute hexec => exact h.execute hexec ih
    | arrive harrive => exact h.arrive harrive ih

/-- Two invariants hold together, the second relying on the first. -/
theorem Invariant.and {P Q : σ → Multiset κ → Prop} (hP : sys.Invariant P)
    (hexecute : ∀ {s s' : σ} {k : κ} {next rest : Multiset κ}, sys.Executes s k s' next →
      P s (k ::ₘ rest) → Q s (k ::ₘ rest) → Q s' (next + rest))
    (harrive : ∀ {s s' : σ} {new rest : Multiset κ}, sys.Arrives s s' new →
      P s rest → Q s rest → Q s' (new + rest)) :
    sys.Invariant fun s calls => P s calls ∧ Q s calls where
  execute h hPQ := ⟨hP.execute h hPQ.1, hexecute h hPQ.1 hPQ.2⟩
  arrive h hPQ := ⟨hP.arrive h hPQ.1, harrive h hPQ.1 hPQ.2⟩

/-! ## Balances -/

section Balances

variable {M : Type} [AddCancelCommMonoid M]

/-- What the calls in progress account for. -/
def total (ofCall : κ → M) (calls : Multiset κ) : M := (calls.map ofCall).sum

@[simp] theorem total_zero (ofCall : κ → M) : total ofCall 0 = 0 := rfl

@[simp] theorem total_cons (ofCall : κ → M) (k : κ) (calls : Multiset κ) :
    total ofCall (k ::ₘ calls) = ofCall k + total ofCall calls := by
  rw [total, total, Multiset.map_cons, Multiset.sum_cons]

@[simp] theorem total_add (ofCall : κ → M) (calls calls' : Multiset κ) :
    total ofCall (calls + calls') = total ofCall calls + total ofCall calls' := by
  rw [total, total, total, Multiset.map_add, Multiset.sum_add]

@[simp] theorem total_singleton (ofCall : κ → M) (k : κ) : total ofCall {k} = ofCall k := by
  rw [total, Multiset.map_singleton, Multiset.sum_singleton]

end Balances

/-! ## Restricted runs -/

/-- The runs in which every call steps only where `ok` allows it. -/
def restrict (sys : System σ κ) (ok : σ → κ → Prop) : System σ κ where
  Executes s k s' next := ok s k ∧ sys.Executes s k s' next
  Arrives := sys.Arrives

theorem Invariant.restrict {P : σ → Multiset κ → Prop} (h : sys.Invariant P) {ok : σ → κ → Prop} :
    (sys.restrict ok).Invariant P where
  execute hexec := h.execute hexec.2
  arrive := h.arrive

/-! ## Termination -/

/-- A bound on the steps that the calls in progress can still take. -/
def weight (ofShared : σ → Nat) (ofCall : κ → Nat) (c : Config σ κ) : Nat :=
  ofShared c.shared + (c.calls.map ofCall).sum

/-- Calls that can always step and use up weight all end, if no new ones arrive. -/
theorem exists_quiescent (ofShared : σ → Nat) (ofCall : κ → Nat)
    (hprogress : ∀ s k, ∃ s' next, sys.Executes s k s' next)
    (hdecreases : ∀ {s k s' next}, sys.Executes s k s' next →
      ofShared s' + (next.map ofCall).sum < ofShared s + ofCall k) (c : Config σ κ) :
    ∃ s, sys.Reachable c ⟨s, 0⟩ := by
  induction hn : weight ofShared ofCall c using Nat.strong_induction_on generalizing c with
  | _ n ih =>
    obtain ⟨s, calls⟩ := c
    by_cases hcalls : calls = 0
    · subst hcalls
      exact ⟨s, .refl⟩
    · obtain ⟨k, rest, rfl⟩ : ∃ k rest, calls = k ::ₘ rest := by
        obtain ⟨k, hk⟩ := Multiset.exists_mem_of_ne_zero hcalls
        exact ⟨k, _, (Multiset.exists_cons_of_mem hk).choose_spec⟩
      obtain ⟨s', next, hexec⟩ := hprogress s k
      have hlt : weight ofShared ofCall ⟨s', next + rest⟩ < n := by
        have := hdecreases hexec
        simp only [weight, Multiset.map_cons, Multiset.sum_cons, Multiset.map_add, Multiset.sum_add] at hn ⊢
        omega
      obtain ⟨t, ht⟩ := ih _ hlt ⟨s', next + rest⟩ rfl
      exact ⟨t, Reachable.trans (Reachable.refl.tail (.execute hexec)) ht⟩

end System

end Interleaving
