-- SUMMARY: Who resolves a spawned task: its worker, a scope tearing down, and the waiters, interleaved.
import Luma.Library.Interleaving

/-! # Task Completion

The completion notifier of a spawned task. The worker that dequeues the task and
a task scope that abandons it race for it with one atomic exchange; the winner
satisfies the promise. Each access to the atomic flag, each section under the
mutex, the promise and each notification is a step of its own. -/

namespace Luma.Concurrency

open Interleaving

/-! ## The notifier -/

/-- The members of a completion notifier. `abandon` is whether the handler that
    resolves the task as cancelled is installed. -/
structure TaskCompletion (S : Type) where
  started : Bool := false
  complete : Bool := false
  subscribers : List S := []
  abandon : Bool := true

namespace TaskCompletion

variable {S : Type}

/-- Set the flag and return what it was. -/
def exchangeStarted (c : TaskCompletion S) : Bool × TaskCompletion S := (c.started, { c with started := true })

/-- Take the abandon handler out. -/
def dropAbandonHandler (c : TaskCompletion S) : Bool × TaskCompletion S := (c.abandon, { c with abandon := false })

/-- The locked section of `mark_complete`: the subscribers to notify. -/
def markComplete (c : TaskCompletion S) : List S × TaskCompletion S :=
  (c.subscribers, { c with complete := true, subscribers := [] })

/-- The locked section of `subscribe`: whether the signal was registered. -/
def subscribe (c : TaskCompletion S) (signal : S) : Bool × TaskCompletion S :=
  if c.complete then (false, c) else (true, { c with subscribers := c.subscribers ++ [signal] })

/-- Remove every registration of a signal. -/
def unsubscribe [DecidableEq S] (c : TaskCompletion S) (signal : S) : TaskCompletion S :=
  { c with subscribers := c.subscribers.filter (· ≠ signal) }

end TaskCompletion

/-! ## Calls -/

inductive Resolver where
  | worker
  | abandoner
  deriving DecidableEq

/-- A task with the history of its resolution. -/
structure Task (S : Type) where
  completion : TaskCompletion S := {}
  /-- Who won the exchange. -/
  claimedBy : Option Resolver := none
  /-- Who set the promise, in order. -/
  resolutions : List Resolver := []
  /-- How often the body was run. -/
  runs : Nat := 0
  subscribed : List S := []
  unsubscribed : List S := []
  notified : List S := []

/-- What a call has still to do. -/
inductive Call (S : Type) where
  -- The worker's callable.
  | claimStart
  | dropHandler
  | run
  | setPromise
  -- `abandon_if_not_started`.
  | abandonIfNotStarted
  | takeHandler
  | runHandler (installed : Bool)
  -- `mark_complete`, of the winner or of a worker whose claim was `lost`.
  | markComplete (lost : Bool)
  | notifyAll (signals : List S)
  -- Waiters.
  | subscribe (signal : S)
  | notify (signal : S)
  | unsubscribe (signal : S)
  deriving DecidableEq

variable {S : Type} [DecidableEq S]

/-- One atomic step of a call. -/
inductive Executes : Task S → Call S → Task S → Multiset (Call S) → Prop where
  | claimed {t : Task S} (h : t.completion.exchangeStarted.1 = false) :
      Executes t .claimStart { t with completion := t.completion.exchangeStarted.2, claimedBy := some .worker }
        {.dropHandler}
  -- The scope guard completes the task on the early return as well.
  | claimLost {t : Task S} (h : t.completion.exchangeStarted.1 = true) :
      Executes t .claimStart { t with completion := t.completion.exchangeStarted.2 } {.markComplete true}
  | handlerDropped {t : Task S} :
      Executes t .dropHandler { t with completion := t.completion.dropAbandonHandler.2 } {.run}
  | ran {t : Task S} : Executes t .run { t with runs := t.runs + 1 } {.setPromise}
  -- The token was cancelled already, or setting up failed: the body is not run.
  | notRun {t : Task S} : Executes t .run t {.setPromise}
  | promiseSet {t : Task S} :
      Executes t .setPromise { t with resolutions := t.resolutions ++ [.worker] } {.markComplete false}
  | abandoned {t : Task S} (h : t.completion.exchangeStarted.1 = false) :
      Executes t .abandonIfNotStarted
        { t with completion := t.completion.exchangeStarted.2, claimedBy := some .abandoner } {.takeHandler}
  | alreadyStarted {t : Task S} (h : t.completion.exchangeStarted.1 = true) :
      Executes t .abandonIfNotStarted { t with completion := t.completion.exchangeStarted.2 } 0
  | handlerTaken {t : Task S} :
      Executes t .takeHandler { t with completion := t.completion.dropAbandonHandler.2 }
        {.runHandler t.completion.dropAbandonHandler.1}
  | handlerRun {t : Task S} :
      Executes t (.runHandler true) { t with resolutions := t.resolutions ++ [.abandoner] } {.markComplete false}
  | noHandler {t : Task S} : Executes t (.runHandler false) t {.markComplete false}
  | completed {t : Task S} {lost : Bool} :
      Executes t (.markComplete lost) { t with completion := t.completion.markComplete.2 }
        {.notifyAll t.completion.markComplete.1}
  | notifyNext {t : Task S} {signal : S} {signals : List S} :
      Executes t (.notifyAll (signal :: signals)) { t with notified := t.notified ++ [signal] } {.notifyAll signals}
  | notifiedAll {t : Task S} : Executes t (.notifyAll []) t 0
  | registered {t : Task S} {signal : S} (h : (t.completion.subscribe signal).1 = true) :
      Executes t (.subscribe signal) { t with completion := (t.completion.subscribe signal).2 } 0
  | registeredLate {t : Task S} {signal : S} (h : (t.completion.subscribe signal).1 = false) :
      Executes t (.subscribe signal) { t with completion := (t.completion.subscribe signal).2 } {.notify signal}
  | notified {t : Task S} {signal : S} :
      Executes t (.notify signal) { t with notified := t.notified ++ [signal] } 0
  | unregistered {t : Task S} {signal : S} :
      Executes t (.unsubscribe signal) { t with completion := t.completion.unsubscribe signal } 0

/-- Scopes and waiters call at any time. The worker's callable is enqueued once. -/
inductive Arrives : Task S → Task S → Multiset (Call S) → Prop where
  | abandon {t : Task S} : Arrives t t {.abandonIfNotStarted}
  | subscribe {t : Task S} {signal : S} :
      Arrives t { t with subscribed := signal :: t.subscribed } {.subscribe signal}
  | unsubscribe {t : Task S} {signal : S} :
      Arrives t { t with unsubscribed := signal :: t.unsubscribed } {.unsubscribe signal}

/-- All interleavings of the calls on one task. -/
def taskSystem (S : Type) [DecidableEq S] : System (Task S) (Call S) := ⟨Executes, Arrives⟩

/-- A task whose callable has just been enqueued. -/
def spawned (S : Type) : Config (Task S) (Call S) := ⟨{}, {.claimStart}⟩

/-! ## One resolver -/

/-- The worker has won and has not set the promise yet. -/
def Call.isWorking : Call S → Bool
  | .dropHandler | .run | .setPromise => true
  | _ => false

/-- The worker has won and has not decided about the body yet. -/
def Call.isStarting : Call S → Bool
  | .dropHandler | .run => true
  | _ => false

/-- An abandoner has won and has not set the promise yet. -/
def Call.isAbandoning : Call S → Bool
  | .takeHandler | .runHandler _ => true
  | _ => false

/-- An abandoner has won and will take the handler out. -/
def Call.isTaking : Call S → Bool
  | .takeHandler => true
  | _ => false

/-- An abandoner has won and found no handler. -/
def Call.isEmptyHanded : Call S → Bool
  | .runHandler false => true
  | _ => false

omit [DecidableEq S]

/-- The calls of a kind that are in progress. -/
def count (kind : Call S → Bool) (calls : Multiset (Call S)) : Nat := calls.countP (kind · = true)

@[simp] theorem count_zero {kind : Call S → Bool} : count kind 0 = 0 := Multiset.countP_zero _

@[simp] theorem count_cons {kind : Call S → Bool} {k : Call S} {calls : Multiset (Call S)} :
    count kind (k ::ₘ calls) = count kind calls + if kind k then 1 else 0 := Multiset.countP_cons _ _ _

@[simp] theorem count_add {kind : Call S → Bool} {a b : Multiset (Call S)} :
    count kind (a + b) = count kind a + count kind b := Multiset.countP_add _ _ _

@[simp] theorem count_singleton {kind : Call S → Bool} {k : Call S} :
    count kind {k} = if kind k then 1 else 0 := by
  rw [← Multiset.cons_zero, count_cons, count_zero, Nat.zero_add]

theorem count_isStarting_le (calls : Multiset (Call S)) :
    count Call.isStarting calls ≤ count Call.isWorking calls := by
  induction calls using Multiset.induction_on with
  | empty => exact Nat.le_refl 0
  | cons k calls ih => cases k <;> simp [Call.isStarting, Call.isWorking] <;> omega

theorem count_isTaking_le (calls : Multiset (Call S)) :
    count Call.isTaking calls + count Call.isEmptyHanded calls ≤ count Call.isAbandoning calls := by
  induction calls using Multiset.induction_on with
  | empty => exact Nat.le_refl 0
  | cons k calls ih =>
    rcases k with _ | _ | _ | _ | _ | _ | (_ | _) | _ | _ | _ | _ | _ <;>
      simp [Call.isTaking, Call.isEmptyHanded, Call.isAbandoning] <;> omega

/-- What is left to do and what was done, by who won the exchange. -/
def OneResolver (t : Task S) (calls : Multiset (Call S)) : Prop :=
  match t.claimedBy with
  | none =>
    t.completion.started = false ∧ t.completion.abandon = true ∧ t.resolutions = [] ∧ t.runs = 0 ∧
      count Call.isWorking calls = 0 ∧ count Call.isAbandoning calls = 0
  | some .worker =>
    t.completion.started = true ∧ count Call.isAbandoning calls = 0 ∧ t.runs + count Call.isStarting calls ≤ 1 ∧
      (count Call.isWorking calls = 1 ∧ t.resolutions = [] ∨
        count Call.isWorking calls = 0 ∧ t.resolutions = [.worker])
  | some .abandoner =>
    t.completion.started = true ∧ count Call.isWorking calls = 0 ∧ t.runs = 0 ∧
      (t.completion.abandon = true ∨ count Call.isTaking calls = 0) ∧ count Call.isEmptyHanded calls = 0 ∧
      (count Call.isAbandoning calls = 1 ∧ t.resolutions = [] ∨
        count Call.isAbandoning calls = 0 ∧ t.resolutions = [.abandoner])

theorem started_subscribe {c : TaskCompletion S} {signal : S} :
    (c.subscribe signal).2.started = c.started ∧ (c.subscribe signal).2.abandon = c.abandon := by
  unfold TaskCompletion.subscribe
  split <;> exact ⟨rfl, rfl⟩

theorem OneResolver.execute [DecidableEq S] {t t' : Task S} {k : Call S} {next rest : Multiset (Call S)}
    (h : Executes t k t' next) (hP : OneResolver t (k ::ₘ rest)) : OneResolver t' (next + rest) := by
  have hstarting := count_isStarting_le rest
  have htaking := count_isTaking_le rest
  cases hclaimed : t.claimedBy with
  | none =>
    -- Only the exchange leads on; the winner's calls do not exist yet.
    cases h <;>
      simp_all [OneResolver, Call.isWorking, Call.isStarting, Call.isAbandoning, Call.isTaking,
        Call.isEmptyHanded, TaskCompletion.exchangeStarted, TaskCompletion.markComplete,
        TaskCompletion.unsubscribe, started_subscribe]
  | some winner =>
    -- The flag is set, so no exchange is won again: the one winning call goes on.
    cases winner <;> cases h <;>
      simp_all [OneResolver, Call.isWorking, Call.isStarting, Call.isAbandoning, Call.isTaking,
        Call.isEmptyHanded, TaskCompletion.exchangeStarted, TaskCompletion.dropAbandonHandler,
        TaskCompletion.markComplete, TaskCompletion.unsubscribe, started_subscribe]

theorem oneResolver_invariant [DecidableEq S] : (taskSystem S).Invariant OneResolver where
  execute h hP := OneResolver.execute h hP
  arrive {t t' new rest} h hP := by
    cases h <;> cases hclaimed : t.claimedBy <;>
      simp_all [OneResolver, Call.isWorking, Call.isStarting, Call.isAbandoning, Call.isTaking, Call.isEmptyHanded]

/-- The promise is set at most once, and only by the winner of the exchange. -/
theorem OneResolver.resolutions {t : Task S} {calls : Multiset (Call S)} (h : OneResolver t calls) :
    t.resolutions = [] ∨ ∃ winner, t.claimedBy = some winner ∧ t.resolutions = [winner] := by
  cases hclaimed : t.claimedBy with
  | none => simp_all [OneResolver]
  | some winner => cases winner <;> simp_all [OneResolver] <;> tauto

/-- The body runs at most once, and not at all after an abandonment. -/
theorem OneResolver.runs {t : Task S} {calls : Multiset (Call S)} (h : OneResolver t calls) :
    t.runs ≤ 1 ∧ (t.runs ≠ 0 → t.claimedBy = some .worker) := by
  cases hclaimed : t.claimedBy with
  | none => simp_all [OneResolver]
  | some winner =>
    cases winner with
    | worker =>
      have hruns : t.runs + count Call.isStarting calls ≤ 1 := by simp_all [OneResolver]
      exact ⟨by omega, fun _ => rfl⟩
    | abandoner => simp_all [OneResolver]

/-- The abandoner that won finds the handler installed. -/
theorem OneResolver.installed {t : Task S} {calls : Multiset (Call S)} (h : OneResolver t calls) :
    count Call.isEmptyHanded calls = 0 := by
  have htaking := count_isTaking_le calls
  cases hclaimed : t.claimedBy with
  | none => simp_all [OneResolver]
  | some winner => cases winner <;> simp_all [OneResolver]

/-! ## Notifications -/

/-- A worker whose claim was lost completes the task only once the promise is set. -/
def Task.Orderly (t : Task S) (k : Call S) : Prop := k = .markComplete true → t.resolutions ≠ []

/-- Calls that exist only once the promise is set, in orderly runs. -/
def Call.isLate : Call S → Bool
  | .markComplete false | .notifyAll _ | .notify _ => true
  | _ => false

/-- Before the promise is set nothing has been completed and nobody notified. -/
def Ordered (t : Task S) (calls : Multiset (Call S)) : Prop :=
  t.resolutions = [] → t.completion.complete = false ∧ t.notified = [] ∧ count Call.isLate calls = 0

theorem complete_subscribe {c : TaskCompletion S} {signal : S} :
    (c.subscribe signal).2.complete = c.complete ∧ (c.subscribe signal).1 = !c.complete := by
  unfold TaskCompletion.subscribe
  split <;> simp_all

theorem ordered_invariant [DecidableEq S] : ((taskSystem S).restrict Task.Orderly).Invariant
    fun t calls => OneResolver t calls ∧ Ordered t calls := by
  refine oneResolver_invariant.restrict.and ?_ ?_
  · rintro t t' k next rest ⟨horderly, h⟩ hone hordered hunset
    have hunset' : t.resolutions = [] := by cases h <;> simp_all
    obtain ⟨hcomplete, hnotified, hlate⟩ := hordered hunset'
    cases h with
    | noHandler =>
      have hinstalled := hone.installed
      simp [Call.isEmptyHanded] at hinstalled
    | @completed lost =>
      cases lost with
      | false => simp [Call.isLate] at hlate
      | true => exact absurd hunset' (horderly rfl)
    | _ =>
      simp_all [Call.isLate, TaskCompletion.exchangeStarted, TaskCompletion.dropAbandonHandler,
        TaskCompletion.unsubscribe, complete_subscribe]
  · intro t t' new rest h hone hordered hunset
    cases h <;> simpa [Call.isLate] using hordered hunset

/-- What a call in progress will notify, or register to be notified. -/
def Call.Owes (signal : S) : Call S → Prop
  | .subscribe s | .notify s => signal = s
  | .notifyAll signals => signal ∈ signals
  | _ => False

/-- No subscription is lost, and a resolved task gets completed. -/
structure Delivered (t : Task S) (calls : Multiset (Call S)) : Prop where
  owed : ∀ signal ∈ t.subscribed, signal ∉ t.unsubscribed →
    signal ∈ t.notified ∨ signal ∈ t.completion.subscribers ∨ ∃ k ∈ calls, k.Owes signal
  unsubscribing : ∀ signal, .unsubscribe signal ∈ calls → signal ∈ t.unsubscribed
  drained : t.completion.complete = true → t.completion.subscribers = []
  completing : t.resolutions ≠ [] → t.completion.complete = true ∨ .markComplete false ∈ calls
  claiming : t.claimedBy = none → .claimStart ∈ calls

section Delivery

variable [DecidableEq S] {t t' : Task S} {k : Call S} {next rest : Multiset (Call S)} {signal : S}

/-- One step passes on what it owes, unless it removes the subscription. -/
theorem Executes.owed (h : Executes t k t' next) (hk : k ≠ .unsubscribe signal)
    (howed : signal ∈ t.notified ∨ signal ∈ t.completion.subscribers ∨ k.Owes signal) :
    signal ∈ t'.notified ∨ signal ∈ t'.completion.subscribers ∨ ∃ k' ∈ next, k'.Owes signal := by
  cases h with
  | registered hnew =>
    simp only [TaskCompletion.subscribe] at hnew ⊢
    split at hnew
    · cases hnew
    · simp_all [Call.Owes]
  | registeredLate hlate =>
    simp only [TaskCompletion.subscribe] at hlate ⊢
    split at hlate
    · simp_all [Call.Owes]
    · cases hlate
  | unregistered =>
    have hne : signal ≠ _ := fun heq => hk (congrArg Call.unsubscribe heq.symm)
    simpa [Call.Owes, TaskCompletion.unsubscribe, hne] using howed
  | notifyNext =>
    simp only [Call.Owes, List.mem_cons, Multiset.mem_singleton, List.mem_append, List.not_mem_nil,
      or_false, exists_eq_left] at howed ⊢
    tauto
  | completed =>
    simpa [Call.Owes, TaskCompletion.markComplete] using howed
  | notified =>
    simp only [Call.Owes, List.mem_append, List.mem_singleton, Multiset.notMem_zero, false_and, exists_false,
      or_false] at howed ⊢
    tauto
  | _ =>
    simpa [Call.Owes, TaskCompletion.exchangeStarted, TaskCompletion.dropAbandonHandler] using howed

theorem Executes.subscribed (h : Executes t k t' next) :
    t'.subscribed = t.subscribed ∧ t'.unsubscribed = t.unsubscribed := by
  cases h <;> exact ⟨rfl, rfl⟩

theorem Executes.unsubscribe_notMem (h : Executes t k t' next) : .unsubscribe signal ∉ next := by
  cases h <;> simp

theorem Executes.drained (h : Executes t k t' next)
    (hdrained : t.completion.complete = true → t.completion.subscribers = []) :
    t'.completion.complete = true → t'.completion.subscribers = [] := by
  cases h with
  | registered hnew =>
    simp only [TaskCompletion.subscribe] at hnew ⊢
    split at hnew
    · cases hnew
    · simp_all
  | registeredLate hlate =>
    simp only [TaskCompletion.subscribe] at hlate ⊢
    split at hlate
    · simp_all
    · cases hlate
  | _ =>
    simp_all [TaskCompletion.exchangeStarted, TaskCompletion.dropAbandonHandler, TaskCompletion.markComplete,
      TaskCompletion.unsubscribe]

/-- A step leaves the task resolved, completed or about to be completed as it was. -/
theorem Executes.completing (h : Executes t k t' next) (hresolved : t'.resolutions ≠ [])
    (hcompleting : t.resolutions ≠ [] → t.completion.complete = true ∨ k = .markComplete false) :
    t'.completion.complete = true ∨ .markComplete false ∈ next := by
  cases h with
  | promiseSet => simp
  | handlerRun => simp
  | noHandler => simp
  | completed => simp [TaskCompletion.markComplete]
  | _ =>
    simpa [TaskCompletion.exchangeStarted, TaskCompletion.dropAbandonHandler, TaskCompletion.unsubscribe,
      complete_subscribe] using hcompleting hresolved

/-- The worker's exchange is its first step, and it never loses to nobody. -/
theorem Executes.claiming (h : Executes t k t' next) (hone : OneResolver t (k ::ₘ rest))
    (hunclaimed : t'.claimedBy = none) : t.claimedBy = none ∧ k ≠ .claimStart := by
  cases h with
  | claimed => cases hunclaimed
  | abandoned => cases hunclaimed
  | claimLost hlost =>
    have hstarted : t.completion.started = false := by simp_all [OneResolver]
    simp [TaskCompletion.exchangeStarted, hstarted] at hlost
  | _ => exact ⟨hunclaimed, nofun⟩

end Delivery

theorem delivered_invariant [DecidableEq S] : (taskSystem S).Invariant
    fun t calls => OneResolver t calls ∧ Delivered t calls := by
  refine oneResolver_invariant.and ?_ ?_
  · intro t t' k next rest h hone hdelivered
    refine ⟨fun signal hsub hunsub => ?_, fun signal hmem => ?_, h.drained hdelivered.drained, fun hresolved => ?_,
      fun hunclaimed => ?_⟩
    · rw [h.subscribed.1] at hsub
      rw [h.subscribed.2] at hunsub
      have hk : k ≠ .unsubscribe signal := fun heq =>
        hunsub (hdelivered.unsubscribing signal (heq ▸ Multiset.mem_cons_self k rest))
      have hnext : (signal ∈ t.notified ∨ signal ∈ t.completion.subscribers ∨ k.Owes signal) →
          signal ∈ t'.notified ∨ signal ∈ t'.completion.subscribers ∨ ∃ k' ∈ next + rest, k'.Owes signal :=
        fun howed => (h.owed hk howed).imp id (.imp id fun ⟨k', hmem, howes⟩ =>
          ⟨k', Multiset.mem_add.mpr (.inl hmem), howes⟩)
      rcases hdelivered.owed signal hsub hunsub with hnotified | hsubscribed | ⟨k', hk', howes⟩
      · exact hnext (.inl hnotified)
      · exact hnext (.inr (.inl hsubscribed))
      · rcases Multiset.mem_cons.mp hk' with rfl | hrest
        · exact hnext (.inr (.inr howes))
        · exact .inr (.inr ⟨k', Multiset.mem_add.mpr (.inr hrest), howes⟩)
    · rcases Multiset.mem_add.mp hmem with hnext | hrest
      · exact absurd hnext h.unsubscribe_notMem
      · rw [h.subscribed.2]
        exact hdelivered.unsubscribing signal (Multiset.mem_cons_of_mem hrest)
    · by_cases hrest : .markComplete false ∈ rest
      · exact .inr (Multiset.mem_add.mpr (.inr hrest))
      · refine (h.completing hresolved fun hbefore => ?_).imp id fun hnext => Multiset.mem_add.mpr (.inl hnext)
        exact (hdelivered.completing hbefore).imp id fun hmem =>
          ((Multiset.mem_cons.mp hmem).resolve_right hrest).symm
    · obtain ⟨hbefore, hne⟩ := h.claiming hone hunclaimed
      have hmem := (Multiset.mem_cons.mp (hdelivered.claiming hbefore)).resolve_left hne.symm
      exact Multiset.mem_add.mpr (.inr hmem)
  · intro t t' new rest h hone hdelivered
    obtain ⟨howed, hunsubscribing, hdrained, hcompleting, hclaiming⟩ := hdelivered
    have hrest : ∀ signal, (signal ∈ t.notified ∨ signal ∈ t.completion.subscribers ∨ ∃ k ∈ rest, k.Owes signal) →
        signal ∈ t.notified ∨ signal ∈ t.completion.subscribers ∨ ∃ k ∈ new + rest, k.Owes signal :=
      fun signal => .imp id (.imp id fun ⟨k, hk, howes⟩ => ⟨k, Multiset.mem_add.mpr (.inr hk), howes⟩)
    have hcompleting' : t.resolutions ≠ [] → t.completion.complete = true ∨ .markComplete false ∈ new + rest :=
      fun hresolved => (hcompleting hresolved).imp id fun hk => Multiset.mem_add.mpr (.inr hk)
    have hclaiming' : t.claimedBy = none → .claimStart ∈ new + rest :=
      fun hunclaimed => Multiset.mem_add.mpr (.inr (hclaiming hunclaimed))
    cases h with
    | abandon =>
      exact ⟨fun signal hsub hunsub => hrest signal (howed signal hsub hunsub),
        fun signal hmem => hunsubscribing signal (by simpa using hmem), hdrained, hcompleting', hclaiming'⟩
    | @subscribe signal =>
      refine ⟨fun s hsub hunsub => ?_, fun s hmem => hunsubscribing s (by simpa using hmem), hdrained, hcompleting',
        hclaiming'⟩
      rcases List.mem_cons.mp hsub with rfl | hsub
      · exact .inr (.inr ⟨.subscribe s, by simp, rfl⟩)
      · exact hrest s (howed s hsub hunsub)
    | @unsubscribe signal =>
      refine ⟨fun s hsub hunsub => hrest s (howed s hsub (mt (List.mem_cons_of_mem signal) hunsub)), fun s hmem => ?_,
        hdrained, hcompleting', hclaiming'⟩
      rcases Multiset.mem_add.mp hmem with hnew | hrest
      · have heq : s = signal := by simpa using hnew
        exact heq ▸ List.mem_cons_self
      · exact List.mem_cons_of_mem signal (hunsubscribing s hrest)

/-! ## Task resolution -/

theorem spawned_oneResolver : OneResolver (spawned S).shared (spawned S).calls := by
  simp [spawned, OneResolver, Call.isWorking, Call.isAbandoning]

theorem spawned_delivered : Delivered (spawned S).shared (spawned S).calls := by
  refine ⟨nofun, ?_, nofun, fun h => absurd rfl h, ?_⟩ <;> simp [spawned]

/-- Every call is a bounded number of steps. -/
def Call.weight : Call S → Nat
  | .claimStart => 8
  | .dropHandler => 7
  | .run => 6
  | .setPromise => 5
  | .abandonIfNotStarted => 7
  | .takeHandler => 6
  | .runHandler _ => 5
  | .markComplete _ => 2
  | .notifyAll signals => 1 + signals.length
  | .subscribe _ => 3
  | .notify _ => 1
  | .unsubscribe _ => 1

theorem Executes.exists [DecidableEq S] (t : Task S) (k : Call S) : ∃ t' next, Executes t k t' next := by
  cases k with
  | claimStart =>
    cases hstarted : t.completion.started with
    | false => exact ⟨_, _, .claimed hstarted⟩
    | true => exact ⟨_, _, .claimLost hstarted⟩
  | abandonIfNotStarted =>
    cases hstarted : t.completion.started with
    | false => exact ⟨_, _, .abandoned hstarted⟩
    | true => exact ⟨_, _, .alreadyStarted hstarted⟩
  | subscribe signal =>
    cases hregistered : (t.completion.subscribe signal).1 with
    | false => exact ⟨_, _, .registeredLate hregistered⟩
    | true => exact ⟨_, _, .registered hregistered⟩
  | runHandler installed =>
    cases installed with
    | false => exact ⟨_, _, .noHandler⟩
    | true => exact ⟨_, _, .handlerRun⟩
  | notifyAll signals =>
    cases signals with
    | nil => exact ⟨_, _, .notifiedAll⟩
    | cons signal signals => exact ⟨_, _, .notifyNext⟩
  | dropHandler => exact ⟨_, _, .handlerDropped⟩
  | run => exact ⟨_, _, .ran⟩
  | setPromise => exact ⟨_, _, .promiseSet⟩
  | takeHandler => exact ⟨_, _, .handlerTaken⟩
  | markComplete => exact ⟨_, _, .completed⟩
  | notify => exact ⟨_, _, .notified⟩
  | unsubscribe => exact ⟨_, _, .unregistered⟩

theorem Executes.weight_lt [DecidableEq S] {t t' : Task S} {k : Call S} {next : Multiset (Call S)}
    (h : Executes t k t' next) :
    t'.completion.subscribers.length + (next.map Call.weight).sum < t.completion.subscribers.length + k.weight := by
  cases h with
  | registered =>
    simp only [TaskCompletion.subscribe, Call.weight, Multiset.map_zero, Multiset.sum_zero]
    split <;> simp
  | registeredLate =>
    simp only [TaskCompletion.subscribe, Call.weight, Multiset.map_singleton, Multiset.sum_singleton]
    split <;> simp
  | @unregistered signal =>
    have hle := List.length_filter_le (· ≠ signal) t.completion.subscribers
    simp only [TaskCompletion.unsubscribe, Call.weight, Multiset.map_zero, Multiset.sum_zero]
    omega
  | _ =>
    simp [Call.weight, TaskCompletion.exchangeStarted, TaskCompletion.dropAbandonHandler,
      TaskCompletion.markComplete] <;> omega

/-- What holds of a task in every interleaving. -/
structure Task.Resolves (t : Task S) (calls : Multiset (Call S)) : Prop where
  /-- The promise is set at most once, by the winner of the exchange. -/
  once : t.resolutions = [] ∨ ∃ winner, t.claimedBy = some winner ∧ t.resolutions = [winner]
  runs_le : t.runs ≤ 1
  abandoned_runs : t.claimedBy = some .abandoner → t.runs = 0
  /-- Once all calls have ended the promise is set and every subscriber notified. -/
  ended : calls = 0 → (∃ winner, t.claimedBy = some winner ∧ t.resolutions = [winner]) ∧
    ∀ signal ∈ t.subscribed, signal ∉ t.unsubscribed → signal ∈ t.notified

theorem resolves_of_invariants {t : Task S} {calls : Multiset (Call S)} (hone : OneResolver t calls)
    (hdelivered : Delivered t calls) : t.Resolves calls := by
  refine ⟨hone.resolutions, hone.runs.1, fun habandoned => ?_, ?_⟩
  · by_contra hruns
    have hworker := hone.runs.2 hruns
    rw [habandoned] at hworker
    cases hworker
  · rintro rfl
    have hclaimed : t.claimedBy ≠ none := fun hunclaimed =>
      Multiset.notMem_zero _ (hdelivered.claiming hunclaimed)
    have hresolved : t.resolutions ≠ [] := by
      intro hunset
      cases hwinner : t.claimedBy with
      | none => exact hclaimed hwinner
      | some winner => cases winner <;> simp_all [OneResolver]
    have hcomplete : t.completion.complete = true :=
      (hdelivered.completing hresolved).resolve_right (Multiset.notMem_zero _)
    refine ⟨hone.resolutions.resolve_left hresolved, fun signal hsub hunsub => ?_⟩
    rcases hdelivered.owed signal hsub hunsub with hnotified | hsubscribed | ⟨k, hk, -⟩
    · exact hnotified
    · rw [hdelivered.drained hcomplete] at hsubscribed
      cases hsubscribed
    · exact absurd hk (Multiset.notMem_zero k)

/-- A worker whose claim was lost and that completes the task before the promise is set
    makes the next subscriber's notification come too early. -/
theorem notified_early [DecidableEq S] (t : Task S) (rest : Multiset (Call S)) (signal : S) :
    ∃ c', (taskSystem S).Reachable ⟨t, .markComplete true ::ₘ rest⟩ c' ∧ signal ∈ c'.shared.notified ∧
      c'.shared.resolutions = t.resolutions := by
  have hcompleted : (taskSystem S).Reachable ⟨t, .markComplete true ::ₘ rest⟩ _ :=
    System.Reachable.refl.execute rfl .completed
  have harrived : (taskSystem S).Reachable ⟨t, .markComplete true ::ₘ rest⟩ _ :=
    hcompleted.arrive (show Arrives _ _ {.subscribe signal} from .subscribe)
  have hlate : (taskSystem S).Reachable ⟨t, .markComplete true ::ₘ rest⟩ _ :=
    harrived.execute (Multiset.singleton_add _ _) (.registeredLate rfl)
  have hnotified : (taskSystem S).Reachable ⟨t, .markComplete true ::ₘ rest⟩ _ :=
    hlate.execute (Multiset.singleton_add _ _) .notified
  exact ⟨_, hnotified, by simp, rfl⟩

/-- In every interleaving the promise is set exactly once, by the winner of the exchange, the
    body runs at most once and not after an abandonment, and every subscriber is notified; it
    is not notified before the promise is set as long as no worker that lost the exchange
    completes the task before. -/
theorem task_resolution [DecidableEq S] :
    (∀ c, (taskSystem S).Reachable (spawned S) c →
      c.shared.Resolves c.calls ∧ ∃ t, (taskSystem S).Reachable c ⟨t, 0⟩) ∧
    (∀ c, ((taskSystem S).restrict Task.Orderly).Reachable (spawned S) c →
      c.shared.notified ≠ [] → c.shared.resolutions ≠ []) ∧
    ∀ c, (taskSystem S).Reachable (spawned S) c → .markComplete true ∈ c.calls → c.shared.resolutions = [] →
      ∀ signal, ∃ c', (taskSystem S).Reachable c c' ∧ signal ∈ c'.shared.notified ∧ c'.shared.resolutions = [] := by
  refine ⟨fun c hreach => ⟨?_, ?_⟩, fun c hreach hnotified hunset => ?_, fun c hreach hlost hunset signal => ?_⟩
  · obtain ⟨hone, hdelivered⟩ :=
      delivered_invariant.reachable hreach ⟨spawned_oneResolver, spawned_delivered⟩
    exact resolves_of_invariants hone hdelivered
  · exact System.exists_quiescent (fun t => t.completion.subscribers.length) Call.weight Executes.exists
      Executes.weight_lt c
  · have hordered : Ordered c.shared c.calls :=
      (ordered_invariant.reachable hreach ⟨spawned_oneResolver, by simp [Ordered, spawned, Call.isLate]⟩).2
    exact hnotified (hordered hunset).2.1
  · obtain ⟨t, calls⟩ := c
    obtain ⟨rest, rfl⟩ := Multiset.exists_cons_of_mem hlost
    obtain ⟨c', hreach', hmem, hresolutions⟩ := notified_early t rest signal
    exact ⟨c', hreach', hmem, hresolutions.trans hunset⟩

/-- A scope wins the exchange; the worker loses it and completes the task before the scope
    has set the promise; a waiter that subscribes now is notified too early. -/
theorem notified_before_promise : ∃ c, (taskSystem Unit).Reachable (spawned Unit) c ∧
    c.shared.notified ≠ [] ∧ c.shared.resolutions = [] := by
  have hcalled : (taskSystem Unit).Reachable (spawned Unit) _ := System.Reachable.refl.arrive .abandon
  have hwon : (taskSystem Unit).Reachable (spawned Unit) _ :=
    hcalled.execute (Multiset.singleton_add _ _) (.abandoned rfl)
  have hlost : (taskSystem Unit).Reachable (spawned Unit) ⟨_, {.markComplete true} + {.takeHandler}⟩ :=
    hwon.execute ((Multiset.add_comm _ _).trans (Multiset.singleton_add _ _)) (.claimLost rfl)
  rw [Multiset.singleton_add] at hlost
  obtain ⟨c, hreach, hmem, hresolutions⟩ := notified_early _ _ ()
  exact ⟨c, hlost.trans hreach, List.ne_nil_of_mem hmem, hresolutions⟩

end Luma.Concurrency
