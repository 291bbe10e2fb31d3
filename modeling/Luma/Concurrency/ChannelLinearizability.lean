-- SUMMARY: Every interleaving of the calls on a channel is a bounded queue, and loses no wake-up.
import Luma.Concurrency.ChannelQueue
import Mathlib.Data.Multiset.Range
import Mathlib.Tactic.Abel

/-! # Channel Linearizability

Every call on a channel takes effect once, as a step of the queue, between its
invocation and its return. A call sleeps only while there is nothing for it, or
while a wake-up is due. -/

namespace Luma.Concurrency

open Interleaving Linearizability

namespace Channel

variable {α : Type}

/-! ## Effects and returns -/

/-- A call that has not taken effect. -/
def Call.entering : Call α → Option (Nat × Op α)
  | .enter id op _ => some (id, op)
  | _ => none

/-- A call that has taken effect and not returned. -/
def Call.answer : Call α → Option (Nat × Outcome α)
  | .enter _ _ _ => none
  | .notifyOne _ id outcome => some (id, outcome)
  | .notifyAll _ id => some (id, .closed)
  | .finish id outcome => some (id, outcome)

/-- The calls that have not taken effect, awake or asleep. -/
def undecided (s : State α) (calls : Multiset (Call α)) : Multiset (Nat × Op α) :=
  calls.filterMap Call.entering + (s.sleepers .notEmpty + s.sleepers .notFull)

def invocation : Event Nat (Op α) (Outcome α) → Option (Nat × Op α)
  | .invoked id op => some (id, op)
  | .returned _ _ => none

def response : Event Nat (Op α) (Outcome α) → Option (Nat × Outcome α)
  | .invoked _ _ => none
  | .returned id outcome => some (id, outcome)

/-- Every call is in one place: it waits to take effect, or has taken effect and answers, or
    has returned. -/
structure Accounted (s : State α) (calls : Multiset (Call α)) : Prop where
  ids : (undecided s calls).map Prod.fst + ↑(s.log.map Effect.id) = Multiset.range s.nextId
  invoked : undecided s calls + ↑(s.log.map fun e => (e.id, e.op)) = ↑(s.history.filterMap invocation)
  returned : calls.filterMap Call.answer + ↑(s.history.filterMap response) = ↑(s.log.map fun e => (e.id, e.res))

section Steps

variable {s s' : State α} {calls rest next : Multiset (Call α)} {cv : Condition} {sleeper : Nat × Op α}
  {sleepers : Multiset (Nat × Op α)}

@[simp] theorem entering_enter {id : Nat} {op : Op α} {slept : Option Bool} :
    (Call.enter id op slept).entering = some (id, op) := rfl

@[simp] theorem answer_finish {id : Nat} {outcome : Outcome α} :
    (Call.finish id outcome).answer = some (id, outcome) := rfl

@[simp] theorem entering_wake {expired : Bool} : (wake sleeper expired).entering = some sleeper := rfl

@[simp] theorem answer_wake {expired : Bool} : (wake sleeper expired).answer = none := rfl

@[simp] theorem entering_rest {ch : Channel α} {id : Nat} {outcome : Outcome α} :
    (outcome.rest ch id).entering = none := by
  unfold Outcome.rest
  split
  · rfl
  · split <;> rfl
  · rfl
  · rfl

@[simp] theorem answer_rest {ch : Channel α} {id : Nat} {outcome : Outcome α} :
    (outcome.rest ch id).answer = some (id, outcome) := by
  unfold Outcome.rest
  split
  · rfl
  · split <;> rfl
  · rfl
  · rfl

theorem undecided_setSleepers :
    undecided (s.setSleepers cv sleepers) calls + s.sleepers cv = undecided s calls + sleepers := by
  cases cv <;> simp only [undecided, State.setSleepers, Function.update_self, ne_eq, reduceCtorEq,
    not_false_eq_true, Function.update_of_ne] <;> abel

theorem undecided_enter {id : Nat} {op : Op α} {slept : Option Bool} :
    undecided s (.enter id op slept ::ₘ calls) = {(id, op)} + undecided s calls := by
  rw [undecided, undecided, Multiset.filterMap_cons_some _ _ _ entering_enter, ← Multiset.singleton_add, add_assoc]

theorem undecided_add : undecided s (calls + rest) = calls.filterMap Call.entering + undecided s rest := by
  rw [undecided, undecided, Multiset.filterMap_add, Multiset.add_assoc]

/-- Sleeping calls wake up. -/
theorem Accounted.wake (h : Accounted s rest) (woken : Multiset ((Nat × Op α) × Bool))
    (hsleepers : s.sleepers cv = woken.map Prod.fst + sleepers) :
    Accounted (s.setSleepers cv sleepers) (woken.map (fun w => Channel.wake w.1 w.2) + rest) := by
  have hentering : (woken.map fun w => Channel.wake w.1 w.2).filterMap Call.entering = woken.map Prod.fst := by
    rw [Multiset.filterMap_map, ← Multiset.filterMap_eq_map]
    rfl
  have hanswer : (woken.map fun w => Channel.wake w.1 w.2).filterMap Call.answer = 0 := by
    rw [Multiset.filterMap_map, Multiset.eq_zero_iff_forall_notMem]
    simp
  have hundecided : undecided (s.setSleepers cv sleepers) (woken.map (fun w => Channel.wake w.1 w.2) + rest) =
      undecided s rest := by
    have hsum : undecided (s.setSleepers cv sleepers) rest + s.sleepers cv = undecided s rest + sleepers :=
      undecided_setSleepers
    rw [hsleepers, ← add_assoc] at hsum
    rw [undecided_add, hentering, add_comm]
    exact add_right_cancel hsum
  constructor
  · rw [hundecided]
    exact h.ids
  · rw [hundecided]
    exact h.invoked
  · rw [Multiset.filterMap_add, hanswer, zero_add]
    exact h.returned

/-- A call goes to sleep. -/
theorem Accounted.sleep {id : Nat} {op : Op α} {slept : Option Bool} (h : Accounted s (.enter id op slept ::ₘ rest)) :
    Accounted (s.setSleepers cv ((id, op) ::ₘ s.sleepers cv)) rest := by
  have hundecided : undecided (s.setSleepers cv ((id, op) ::ₘ s.sleepers cv)) rest =
      undecided s (.enter id op slept ::ₘ rest) := by
    have hsum : undecided (s.setSleepers cv ((id, op) ::ₘ s.sleepers cv)) rest + s.sleepers cv =
        undecided s rest + ({(id, op)} + s.sleepers cv) := by
      rw [undecided_setSleepers, Multiset.singleton_add]
    rw [← add_assoc, add_comm _ {(id, op)}] at hsum
    rw [undecided_enter]
    exact add_right_cancel hsum
  constructor
  · rw [hundecided]
    exact h.ids
  · rw [hundecided]
    exact h.invoked
  · have hreturned := h.returned
    rw [Multiset.filterMap_cons_none _ _ rfl] at hreturned
    exact hreturned

/-- A call that has taken effect goes on. -/
theorem Accounted.proceed {k k' : Call α} (h : Accounted s (k ::ₘ rest)) (hk : k.entering = none)
    (hk' : k'.entering = none) (hanswer : k'.answer = k.answer) : Accounted s (k' ::ₘ rest) := by
  have hundecided : undecided s (k' ::ₘ rest) = undecided s (k ::ₘ rest) := by
    rw [undecided, undecided, Multiset.filterMap_cons_none _ _ hk, Multiset.filterMap_cons_none _ _ hk']
  constructor
  · rw [hundecided]
    exact h.ids
  · rw [hundecided]
    exact h.invoked
  · rw [Multiset.filterMap_cons, hanswer, ← Multiset.filterMap_cons]
    exact h.returned

/-- A call takes effect. -/
theorem Accounted.decide {id : Nat} {op : Op α} {slept : Option Bool} {outcome : Outcome α} {ch : Channel α}
    {k' : Call α} (h : Accounted s (.enter id op slept ::ₘ rest)) (hk' : k'.entering = none)
    (hanswer : k'.answer = some (id, outcome)) : Accounted (s.decide id op outcome ch) (k' ::ₘ rest) := by
  have hafter : undecided (s.decide id op outcome ch) (k' ::ₘ rest) = undecided s rest := by
    rw [undecided, undecided, Multiset.filterMap_cons_none _ _ hk']
    rfl
  constructor
  · have hids := h.ids
    rw [undecided_enter] at hids
    rw [hafter]
    simp only [State.decide, List.map_append, List.map_singleton, ← Multiset.coe_add, Multiset.coe_singleton] at hids ⊢
    rw [← hids, Multiset.map_add, Multiset.map_singleton]
    abel
  · have hinvoked := h.invoked
    rw [undecided_enter] at hinvoked
    rw [hafter]
    simp only [State.decide, List.map_append, List.map_singleton, ← Multiset.coe_add, Multiset.coe_singleton] at hinvoked ⊢
    rw [← hinvoked]
    abel
  · have hreturned := h.returned
    rw [Multiset.filterMap_cons_none _ _ rfl] at hreturned
    rw [Multiset.filterMap_cons_some _ _ _ hanswer, ← Multiset.singleton_add]
    simp only [State.decide, List.map_append, List.map_singleton, ← Multiset.coe_add, Multiset.coe_singleton]
    rw [← hreturned]
    abel

/-- A call returns. -/
theorem Accounted.finish {id : Nat} {outcome : Outcome α} (h : Accounted s (.finish id outcome ::ₘ rest)) :
    Accounted { s with history := s.history ++ [.returned id outcome] } rest := by
  have hids := h.ids
  have hinvoked := h.invoked
  have hreturned := h.returned
  rw [undecided, Multiset.filterMap_cons_none _ _ rfl] at hids hinvoked
  rw [Multiset.filterMap_cons_some _ _ _ answer_finish, ← Multiset.singleton_add] at hreturned
  refine ⟨hids, ?_, ?_⟩
  · rw [List.filterMap_append]
    simpa only [undecided, invocation, List.filterMap_cons, List.filterMap_nil, List.append_nil] using hinvoked
  · rw [List.filterMap_append, ← Multiset.coe_add, ← hreturned]
    simp only [response, List.filterMap_cons, List.filterMap_nil, Multiset.coe_singleton]
    abel

/-- A call arrives. -/
theorem Accounted.call {op : Op α} (h : Accounted s rest) :
    Accounted { s with nextId := s.nextId + 1, history := s.history ++ [.invoked s.nextId op] }
      (.enter s.nextId op none ::ₘ rest) := by
  have hafter : undecided { s with nextId := s.nextId + 1, history := s.history ++ [.invoked s.nextId op] }
      (.enter s.nextId op none ::ₘ rest) = {(s.nextId, op)} + undecided s rest := by
    rw [undecided_enter]
    rfl
  constructor
  · rw [hafter, Multiset.range_succ, ← h.ids, Multiset.map_add, Multiset.map_singleton, add_assoc,
      Multiset.singleton_add]
  · rw [hafter, List.filterMap_append, ← Multiset.coe_add, ← h.invoked]
    simp only [invocation, List.filterMap_cons, List.filterMap_nil, Multiset.coe_singleton]
    abel
  · rw [Multiset.filterMap_cons_none _ _ rfl, List.filterMap_append]
    simpa only [response, List.filterMap_cons, List.filterMap_nil, List.append_nil] using h.returned

theorem Accounted.invoked_mem {id : Nat} {op : Op α} {slept : Option Bool}
    (h : Accounted s (.enter id op slept ::ₘ rest)) : .invoked id op ∈ s.history := by
  have hmem : (id, op) ∈ (↑(s.history.filterMap invocation) : Multiset (Nat × Op α)) := by
    rw [← h.invoked, undecided_enter]
    simp
  rw [Multiset.mem_coe, List.mem_filterMap] at hmem
  obtain ⟨event, hevent, hinvocation⟩ := hmem
  cases event with
  | invoked =>
    cases hinvocation
    exact hevent
  | returned => cases hinvocation

theorem Accounted.notMem_log {id : Nat} {op : Op α} {slept : Option Bool}
    (h : Accounted s (.enter id op slept ::ₘ rest)) : id ∉ s.log.map Effect.id := by
  intro hmem
  have hnodup := Multiset.nodup_range s.nextId
  rw [← h.ids, undecided_enter, Multiset.nodup_add] at hnodup
  exact Multiset.disjoint_left.mp hnodup.2.2 (by simp) (Multiset.mem_coe.mpr hmem)

theorem Accounted.nextId_notMem (h : Accounted s rest) : s.nextId ∉ s.log.map Effect.id := by
  intro hmem
  have hrange : s.nextId ∈ Multiset.range s.nextId := by
    rw [← h.ids]
    exact Multiset.mem_add.mpr (Or.inr (Multiset.mem_coe.mpr hmem))
  exact Multiset.notMem_range_self hrange

theorem Accounted.effect_mem {id : Nat} {outcome : Outcome α} (h : Accounted s (.finish id outcome ::ₘ rest)) :
    ∃ e ∈ s.log, e.id = id ∧ e.res = outcome := by
  have hmem : (id, outcome) ∈ (↑(s.log.map fun e => (e.id, e.res)) : Multiset (Nat × Outcome α)) := by
    rw [← h.returned, Multiset.filterMap_cons_some _ _ _ answer_finish]
    simp
  rw [Multiset.mem_coe, List.mem_map] at hmem
  obtain ⟨e, he, heq⟩ := hmem
  cases heq
  exact ⟨e, he, rfl, rfl⟩

/-- The queue, the calls and the history fit together. -/
structure Consistent [Inhabited α] (maxQueueSize limit : Nat) (s : State α) (calls : Multiset (Call α)) : Prop where
  capacity_eq : s.channel.capacity maxQueueSize = limit
  accounted : Accounted s calls
  run : Fifo.Run limit s.log s.channel.fifo
  linearizes : Linearizes (fun log => ∃ f, Fifo.Run limit log f) s.history s.log

variable [Inhabited α] {maxQueueSize limit : Nat} {id : Nat} {op : Op α} {slept : Option Bool}

/-- A call that takes the mutex takes effect as the queue allows, or goes to sleep with
    nothing there for it. -/
theorem Executes.enter_cases (h : Executes maxQueueSize s (.enter id op slept) s' next) :
    (∃ outcome ch, s' = s.decide id op outcome ch ∧ next = {outcome.rest ch id} ∧
      Refines maxQueueSize s.channel op outcome ch) ∨
    ∃ cv wait, op.waitsOn = some (cv, wait) ∧ s' = s.setSleepers cv ((id, op) ::ₘ s.sleepers cv) ∧ next = 0 ∧
      s.channel.closed = false ∧ s.channel.fifo.available (s.channel.capacity maxQueueSize) cv = 0 ∧
        (cv = .notFull → slept = none → s.channel.buffer.isBounded = true) := by
  cases h with
  | decided h => exact Or.inl ⟨_, _, rfl, rfl, attempt_refines h⟩
  | timedOut h hwait => exact Or.inl ⟨.timedOut, _, rfl, rfl, (attempt_blocked h hwait).2.2.2 _ rfl⟩
  | cancelled h hwait => exact Or.inl ⟨.failed .cancelled, _, rfl, rfl, (attempt_blocked h hwait).2.2.2 _ rfl⟩
  | sleeps h hwait =>
    obtain ⟨hopen, havailable, hbounded, -⟩ := attempt_blocked h hwait
    exact Or.inr ⟨_, _, hwait, rfl, rfl, hopen, havailable, fun hcv hslept => hbounded hcv (by rw [hslept]; rfl)⟩

theorem consistent_invariant : (channelSystem α maxQueueSize).Invariant (Consistent maxQueueSize limit) where
  execute {s s' k next rest} h hP := by
    cases k with
    | enter id op slept =>
      rcases Executes.enter_cases h with ⟨outcome, ch, rfl, rfl, hstep, hlimit, -⟩ | ⟨cv, wait, -, rfl, rfl, -⟩
      · rw [Multiset.singleton_add]
        rw [hP.capacity_eq] at hstep
        have hrun : Fifo.Run limit (s.log ++ [⟨id, op, outcome⟩]) ch.fifo := hP.run.concat hstep
        exact
          { capacity_eq := hlimit.trans hP.capacity_eq
            accounted := hP.accounted.decide entering_rest answer_rest
            run := hrun
            linearizes := hP.linearizes.decide hP.accounted.invoked_mem hP.accounted.notMem_log ⟨ch.fifo, hrun⟩ }
      · rw [Multiset.zero_add]
        exact ⟨hP.capacity_eq, hP.accounted.sleep, hP.run, hP.linearizes⟩
    | notifyOne cv id outcome =>
      have haccounted : Accounted s (.finish id outcome ::ₘ rest) := hP.accounted.proceed rfl rfl rfl
      cases h with
      | @notified cv id outcome sleeper sleepers expired hsleepers =>
        have hwoken := haccounted.wake {(sleeper, expired)} hsleepers
        rw [Multiset.map_singleton, Multiset.singleton_add] at hwoken
        exact ⟨hP.capacity_eq, by simpa using hwoken, hP.run, hP.linearizes⟩
      | notifiedNobody => exact ⟨hP.capacity_eq, haccounted, hP.run, hP.linearizes⟩
    | notifyAll cv id =>
      cases h with
      | @notifiedAll cv id woken hwoken =>
        have haccounted : Accounted s (notifyAllRest id cv ::ₘ rest) := by
          cases cv <;> exact hP.accounted.proceed rfl rfl rfl
        have hwake := haccounted.wake woken (hwoken.symm.trans (add_zero _).symm)
        rw [← Multiset.singleton_add, ← add_assoc] at hwake
        exact ⟨hP.capacity_eq, hwake, hP.run, hP.linearizes⟩
    | finish id outcome =>
      cases h with
      | finished =>
        rw [Multiset.zero_add]
        exact ⟨hP.capacity_eq, hP.accounted.finish, hP.run, hP.linearizes.respond hP.accounted.effect_mem⟩
  arrive {s s' new rest} h hP := by
    cases h with
    | called => exact ⟨hP.capacity_eq, hP.accounted.call, hP.run, hP.linearizes.invoke hP.accounted.nextId_notMem⟩
    | @woke cv sleeper sleepers expired hsleepers =>
      have hwoken := hP.accounted.wake {(sleeper, expired)} hsleepers
      exact ⟨hP.capacity_eq, by simpa using hwoken, hP.run, hP.linearizes⟩

end Steps

/-! ## Wake-ups -/

section WakeUps

variable {s s' : State α} {calls rest next : Multiset (Call α)} {cv : Condition} {sleeper : Nat × Op α}
  {sleepers : Multiset (Nat × Op α)} {maxQueueSize limit : Nat} {id : Nat} {op : Op α} {slept : Option Bool}

/-- A notification that is due, or a call that has been woken and not run yet. -/
def Call.wakesUp (cv : Condition) : Call α → Bool
  | .enter _ op (some _) => op.waitsOn.map Prod.fst = some cv
  | .notifyOne cv' _ _ => cv' = cv
  | _ => false

/-- A `close` that has not woken the sleepers of a condition variable yet. -/
def Call.wakesAll (cv : Condition) : Call α → Bool
  | .notifyAll cv' _ => cv' = .notEmpty ∨ cv' = cv
  | _ => false

def wakeUps (cv : Condition) (calls : Multiset (Call α)) : Nat := calls.countP (Call.wakesUp cv · = true)

@[simp] theorem wakeUps_cons {k : Call α} :
    wakeUps cv (k ::ₘ calls) = wakeUps cv calls + if k.wakesUp cv then 1 else 0 := Multiset.countP_cons _ _ _

@[simp] theorem wakeUps_singleton {k : Call α} : wakeUps cv {k} = if k.wakesUp cv then 1 else 0 := by
  rw [← Multiset.cons_zero, wakeUps_cons, wakeUps, Multiset.countP_zero, Nat.zero_add]

@[simp] theorem wakesUp_notifyAll {cv' : Condition} : (Call.notifyAll cv' id : Call α).wakesUp cv = false := rfl

@[simp] theorem wakesUp_finish {outcome : Outcome α} : (Call.finish id outcome).wakesUp cv = false := rfl

@[simp] theorem wakesUp_notifyAllRest {cv' : Condition} : (notifyAllRest id cv' : Call α).wakesUp cv = false := by
  cases cv' <;> rfl

@[simp] theorem wakeUps_add : wakeUps cv (calls + rest) = wakeUps cv calls + wakeUps cv rest :=
  Multiset.countP_add _ _ _

/-- A step of the queue makes no more available than it has wake-ups due, and what a call that
    was woken leaves behind is nothing. -/
theorem Fifo.Step.available_le {f f' : Fifo α} {outcome : Outcome α} {ch : Channel α}
    (h : Fifo.Step limit f op outcome f') (hclosed : f'.closed = false)
    (hbounded : cv = .notFull → ch.buffer.isBounded = true) :
    f'.available limit cv = 0 ∨
      f'.available limit cv + (if (Call.enter id op slept).wakesUp cv then 1 else 0) ≤
        f.available limit cv + if (outcome.rest ch id).wakesUp cv then 1 else 0 := by
  cases h with
  | sent hop hroom =>
    -- A sender takes room, and notifies of a value.
    cases op <;> cases hop <;> cases cv <;> cases slept <;>
      simp [Fifo.available, Call.wakesUp, Outcome.rest, Op.waitsOn] <;> omega
  | received hop =>
    -- A receiver takes a value, and notifies of room if the channel is bounded.
    cases op <;> cases hop <;> cases cv <;> cases slept <;>
      simp_all [Fifo.available, Call.wakesUp, Outcome.rest, Op.waitsOn] <;> omega
  | notSent hop hfull =>
    cases op <;> cases hop <;> cases cv <;> cases slept <;>
      simp_all [Fifo.available, Call.wakesUp, Op.waitsOn]
  | notReceived hop =>
    cases op <;> cases hop <;> cases cv <;> cases slept <;>
      simp [Fifo.available, Call.wakesUp, Op.waitsOn]
  | _ => cases hclosed

/-- A step of the queue that closes it is a `close`, which wakes everybody. -/
theorem Fifo.Step.wakesAll {f f' : Fifo α} {outcome : Outcome α} {ch : Channel α}
    (h : Fifo.Step limit f op outcome f') (hopen : f.closed = false) (hclosed : f'.closed = true) :
    (outcome.rest ch id).wakesAll cv = true := by
  cases h with
  | closed => rfl
  | received => cases hopen.symm.trans hclosed
  | drained => cases hopen
  | sendClosed => cases hopen
  | _ => cases hclosed

theorem Fifo.Step.closed_mono {f f' : Fifo α} {outcome : Outcome α} (h : Fifo.Step limit f op outcome f')
    (hclosed : f.closed = true) : f'.closed = true := by
  cases h <;> simp_all

theorem wakesUp_wake {cv' : Condition} {expired : Bool} (h : sleeper.2.waitsOn.map Prod.fst = some cv') :
    (wake sleeper expired).wakesUp cv = decide (cv' = cv) := by
  simp [wake, Call.wakesUp, h]

theorem wakesUp_rest_of_unbounded {ch : Channel α} {outcome : Outcome α} (h : ch.buffer.isBounded = false) :
    (outcome.rest ch id).wakesUp .notFull = false := by
  cases outcome <;> simp [Outcome.rest, Call.wakesUp, h]

@[simp] theorem setSleepers_self : (s.setSleepers cv sleepers).sleepers cv = sleepers := Function.update_self _ _ _

theorem setSleepers_ne {cv' : Condition} (h : cv ≠ cv') : (s.setSleepers cv' sleepers).sleepers cv = s.sleepers cv :=
  Function.update_of_ne h _ _

theorem setSleepers_eq_zero {cv' : Condition} (hle : sleepers ≤ s.sleepers cv) (h : s.sleepers cv' = 0) :
    (s.setSleepers cv sleepers).sleepers cv' = 0 := by
  by_cases hcv : cv' = cv
  · subst hcv
    rw [setSleepers_self]
    exact Multiset.le_zero.mp (h ▸ hle)
  · rw [setSleepers_ne hcv, h]

/-- Calls that wake up from a condition variable are wake-ups there. -/
theorem wakeUps_woken {cv' : Condition} {woken : Multiset ((Nat × Op α) × Bool)}
    (h : ∀ w ∈ woken, w.1.2.waitsOn.map Prod.fst = some cv) :
    wakeUps cv' (woken.map fun w => wake w.1 w.2) = if cv = cv' then woken.card else 0 := by
  induction woken using Multiset.induction_on with
  | empty => simp [wakeUps]
  | cons w woken ih =>
    have hw : (wake w.1 w.2).wakesUp cv' = decide (cv = cv') := wakesUp_wake (h w (Multiset.mem_cons_self _ _))
    rw [Multiset.map_cons, wakeUps_cons, ih fun w' hw' => h w' (Multiset.mem_cons_of_mem hw'), hw, Multiset.card_cons]
    by_cases hcv : cv = cv' <;> simp [hcv]

/-- A notification becomes the wake-up of the call it wakes. -/
theorem wakeUps_notified {cv' : Condition} {outcome : Outcome α} {expired : Bool}
    (h : sleeper.2.waitsOn.map Prod.fst = some cv) :
    wakeUps cv' ({wake sleeper expired, .finish id outcome} + rest) = wakeUps cv' (.notifyOne cv id outcome ::ₘ rest) := by
  rw [Multiset.insert_eq_cons, Multiset.cons_add, Multiset.singleton_add, wakeUps_cons, wakeUps_cons, wakeUps_cons,
    wakesUp_wake h]
  rfl

/-- A call that wakes nobody may go. -/
theorem exists_wakesAll_of_cons {k : Call α} (hk : k.wakesAll cv = false) (hle : rest ≤ calls)
    (h : ∃ k' ∈ k ::ₘ rest, k'.wakesAll cv = true) : ∃ k' ∈ calls, k'.wakesAll cv = true := by
  obtain ⟨k', hk', hall⟩ := h
  rcases Multiset.mem_cons.mp hk' with rfl | hrest
  · cases hk.symm.trans hall
  · exact ⟨k', Multiset.mem_of_le hle hrest, hall⟩

variable [Inhabited α]

/-- Calls asleep on a condition variable have nothing to wait for that no wake-up is due for. -/
def Alert (limit : Nat) (s : State α) (calls : Multiset (Call α)) (cv : Condition) : Prop :=
  s.sleepers cv = 0 ∨
    s.channel.closed = false ∧ s.channel.fifo.available limit cv ≤ wakeUps cv calls ∨
      s.channel.closed = true ∧ ∃ k ∈ calls, k.wakesAll cv = true

/-- Steps outside the mutex keep the wake-ups due. -/
theorem Alert.mono {calls' : Multiset (Call α)} (h : Alert limit s calls cv) (hchannel : s'.channel = s.channel)
    (hsleepers : s.sleepers cv = 0 → s'.sleepers cv = 0) (hcount : wakeUps cv calls ≤ wakeUps cv calls')
    (hall : (∃ k ∈ calls, k.wakesAll cv = true) → ∃ k ∈ calls', k.wakesAll cv = true) :
    Alert limit s' calls' cv := by
  rw [Alert, hchannel]
  rcases h with hnone | ⟨hopen, hle⟩ | ⟨hclosed, hk⟩
  · exact Or.inl (hsleepers hnone)
  · exact Or.inr (Or.inl ⟨hopen, hle.trans hcount⟩)
  · exact Or.inr (Or.inr ⟨hclosed, hall hk⟩)

theorem Alert.decide {outcome : Outcome α} {ch : Channel α} (h : Alert limit s (.enter id op slept ::ₘ rest) cv)
    (hstep : Fifo.Step limit s.channel.fifo op outcome ch.fifo)
    (hbounded : cv = .notFull → ch.buffer.isBounded = true ∨ s.sleepers .notFull = 0) :
    Alert limit (s.decide id op outcome ch) (outcome.rest ch id ::ₘ rest) cv := by
  rcases h with hnone | ⟨hopen, hle⟩ | ⟨hclosed, hall⟩
  · exact Or.inl hnone
  · by_cases hsleepers : s.sleepers cv = 0
    · exact Or.inl hsleepers
    · have hbounded' : cv = .notFull → ch.buffer.isBounded = true := by
        rintro rfl
        exact (hbounded rfl).resolve_right hsleepers
      refine Or.inr ?_
      cases hclosed : ch.closed with
      | false =>
        refine Or.inl ⟨hclosed, ?_⟩
        have havailable : ch.fifo.available limit cv = 0 ∨
            ch.fifo.available limit cv + (if (Call.enter id op slept).wakesUp cv then 1 else 0) ≤ _ :=
          hstep.available_le hclosed hbounded'
        simp only [wakeUps_cons] at hle ⊢
        show ch.fifo.available limit cv ≤ _
        omega
      | true => exact Or.inr ⟨hclosed, _, Multiset.mem_cons_self _ _, hstep.wakesAll hopen hclosed⟩
  · exact Or.inr (Or.inr ⟨hstep.closed_mono hclosed, exists_wakesAll_of_cons rfl (Multiset.le_cons_self _ _) hall⟩)

theorem Alert.sleep {cv' : Condition} {wait : Wait} (h : Alert limit s (.enter id op slept ::ₘ rest) cv)
    (hwait : op.waitsOn = some (cv', wait)) (hopen : s.channel.closed = false)
    (havailable : s.channel.fifo.available limit cv' = 0) :
    Alert limit (s.setSleepers cv' ((id, op) ::ₘ s.sleepers cv')) rest cv := by
  by_cases hcv : cv = cv'
  · subst hcv
    exact Or.inr (Or.inl ⟨hopen, by rw [show (s.setSleepers cv _).channel = s.channel from rfl, havailable]; omega⟩)
  · have hasleep : (Call.enter id op slept).wakesUp cv = false := by
      cases slept <;> simp [Call.wakesUp, hwait, Ne.symm hcv]
    exact h.mono rfl (fun hnone => (setSleepers_ne hcv).trans hnone) (by simp [hasleep])
      (exists_wakesAll_of_cons rfl le_rfl)

/-- The calls asleep sleep where they should, nobody sleeps for room in an unbounded channel,
    and every condition variable is alert. -/
structure Attentive (maxQueueSize limit : Nat) (bounded : Bool) (s : State α) (calls : Multiset (Call α)) : Prop where
  capacity_eq : s.channel.capacity maxQueueSize = limit
  bounded_eq : s.channel.buffer.isBounded = bounded
  sleeping : ∀ cv, ∀ sleeper ∈ s.sleepers cv, sleeper.2.waitsOn.map Prod.fst = some cv
  unbounded : bounded = false → s.sleepers .notFull = 0 ∧ wakeUps .notFull calls = 0
  alert : ∀ cv, Alert limit s calls cv

theorem Attentive.decide {bounded : Bool} {outcome : Outcome α} {ch : Channel α}
    (h : Attentive maxQueueSize limit bounded s (.enter id op slept ::ₘ rest))
    (hstep : Refines maxQueueSize s.channel op outcome ch) :
    Attentive maxQueueSize limit bounded (s.decide id op outcome ch) (outcome.rest ch id ::ₘ rest) := by
  obtain ⟨hfifo, hcapacity, hbounded⟩ := hstep
  rw [h.capacity_eq] at hfifo
  refine ⟨hcapacity.trans h.capacity_eq, hbounded.trans h.bounded_eq, h.sleeping, ?_, ?_⟩
  · intro hunbounded
    obtain ⟨hsleepers, hcount⟩ := h.unbounded hunbounded
    have hrest : (outcome.rest ch id).wakesUp .notFull = false :=
      wakesUp_rest_of_unbounded (hbounded.trans (h.bounded_eq.trans hunbounded))
    rw [wakeUps_cons] at hcount
    refine ⟨hsleepers, ?_⟩
    rw [wakeUps_cons, hrest]
    simp only [Bool.false_eq_true, if_false]
    omega
  · intro cv
    refine (h.alert cv).decide hfifo fun hcv => ?_
    cases hkind : bounded with
    | true => exact Or.inl (hbounded.trans (h.bounded_eq.trans hkind))
    | false => exact Or.inr (h.unbounded hkind).1

theorem Attentive.sleep {bounded : Bool} {cv : Condition} {wait : Wait}
    (h : Attentive maxQueueSize limit bounded s (.enter id op slept ::ₘ rest))
    (hwait : op.waitsOn = some (cv, wait)) (hopen : s.channel.closed = false)
    (havailable : s.channel.fifo.available limit cv = 0)
    (hbounded : cv = .notFull → slept = none → s.channel.buffer.isBounded = true) :
    Attentive maxQueueSize limit bounded (s.setSleepers cv ((id, op) ::ₘ s.sleepers cv)) rest := by
  refine ⟨h.capacity_eq, h.bounded_eq, ?_, ?_, fun cv' => (h.alert cv').sleep hwait hopen havailable⟩
  · intro cv' sleeper hsleeper
    by_cases hcv : cv' = cv
    · subst hcv
      rw [setSleepers_self] at hsleeper
      rcases Multiset.mem_cons.mp hsleeper with rfl | hold
      · simp [hwait]
      · exact h.sleeping cv' sleeper hold
    · rw [setSleepers_ne hcv] at hsleeper
      exact h.sleeping cv' sleeper hsleeper
  · intro hunbounded
    obtain ⟨hsleepers, hcount⟩ := h.unbounded hunbounded
    rw [wakeUps_cons] at hcount
    have hcv : cv ≠ .notFull := by
      rintro rfl
      cases slept with
      | none => cases (hbounded rfl rfl).symm.trans (h.bounded_eq.trans hunbounded)
      | some expired => simp [Call.wakesUp, hwait] at hcount
    exact ⟨(setSleepers_ne hcv.symm).trans hsleepers, by omega⟩

/-- Calls that wake up leave the others asleep as they were. -/
theorem Attentive.rouse {bounded : Bool} {calls' : Multiset (Call α)}
    (h : Attentive maxQueueSize limit bounded s calls) (hle : sleepers ≤ s.sleepers cv)
    (hcount : bounded = false → wakeUps .notFull calls' = 0)
    (halert : ∀ cv', Alert limit (s.setSleepers cv sleepers) calls' cv') :
    Attentive maxQueueSize limit bounded (s.setSleepers cv sleepers) calls' := by
  refine ⟨h.capacity_eq, h.bounded_eq, ?_, fun hunbounded => ?_, halert⟩
  · intro cv' sleeper hsleeper
    by_cases hcv : cv' = cv
    · subst hcv
      rw [setSleepers_self] at hsleeper
      exact h.sleeping cv' sleeper (Multiset.mem_of_le hle hsleeper)
    · rw [setSleepers_ne hcv] at hsleeper
      exact h.sleeping cv' sleeper hsleeper
  · exact ⟨setSleepers_eq_zero hle (h.unbounded hunbounded).1, hcount hunbounded⟩

/-- Nobody wakes up from waiting for room in an unbounded channel. -/
theorem Attentive.wakeUps_woken {bounded : Bool} {woken : Multiset ((Nat × Op α) × Bool)}
    (h : Attentive maxQueueSize limit bounded s calls) (hsleepers : s.sleepers cv = woken.map Prod.fst + sleepers)
    (hunbounded : bounded = false) : wakeUps .notFull (woken.map fun w => wake w.1 w.2) = 0 := by
  have hwaits : ∀ w ∈ woken, w.1.2.waitsOn.map Prod.fst = some cv := by
    intro w hw
    refine h.sleeping cv w.1 ?_
    rw [hsleepers]
    exact Multiset.mem_add.mpr (Or.inl (Multiset.mem_map_of_mem _ hw))
  rw [Channel.wakeUps_woken hwaits]
  split
  next hcv =>
    subst hcv
    have hnone := (h.unbounded hunbounded).1
    rw [hsleepers] at hnone
    have hcard := congrArg Multiset.card hnone
    simp only [Multiset.card_add, Multiset.card_map, Multiset.card_zero] at hcard
    omega
  · rfl

theorem attentive_invariant {bounded : Bool} :
    (channelSystem α maxQueueSize).Invariant (Attentive maxQueueSize limit bounded) where
  execute {s s' k next rest} h hP := by
    cases k with
    | enter id op slept =>
      rcases Executes.enter_cases h with
        ⟨outcome, ch, rfl, rfl, hstep⟩ | ⟨cv, wait, hwait, rfl, rfl, hopen, havailable, hbounded⟩
      · rw [Multiset.singleton_add]
        exact hP.decide hstep
      · rw [Multiset.zero_add]
        exact hP.sleep hwait hopen (hP.capacity_eq ▸ havailable) hbounded
    | notifyOne cv id outcome =>
      cases h with
      | @notified cv id outcome sleeper sleepers expired hsleepers =>
        have hwaits := hP.sleeping cv sleeper (hsleepers ▸ Multiset.mem_cons_self _ _)
        have hle : sleepers ≤ s.sleepers cv := hsleepers ▸ Multiset.le_cons_self _ _
        refine hP.rouse hle (fun hunbounded => ?_) fun cv' => ?_
        · rw [wakeUps_notified hwaits]
          exact (hP.unbounded hunbounded).2
        · exact (hP.alert cv').mono rfl (setSleepers_eq_zero hle) (wakeUps_notified hwaits).ge
            (exists_wakesAll_of_cons rfl (Multiset.le_add_left _ _))
      | notifiedNobody hnone =>
        refine ⟨hP.capacity_eq, hP.bounded_eq, hP.sleeping, fun hunbounded => ?_, fun cv' => ?_⟩
        · obtain ⟨hsleepers, hcount⟩ := hP.unbounded hunbounded
          rw [wakeUps_cons] at hcount
          rw [Multiset.singleton_add, wakeUps_cons]
          exact ⟨hsleepers, by simp only [Call.wakesUp, Bool.false_eq_true, if_false]; omega⟩
        · by_cases hcv : cv = cv'
          · exact Or.inl (hcv ▸ hnone)
          · exact (hP.alert cv').mono rfl (fun hnone => hnone) (by simp [Call.wakesUp, hcv])
              (exists_wakesAll_of_cons rfl (Multiset.le_add_left _ _))
    | notifyAll cv id =>
      cases h with
      | @notifiedAll cv id woken hwoken =>
        have hsleepers : s.sleepers cv = woken.map Prod.fst + 0 := hwoken.symm.trans (add_zero _).symm
        refine hP.rouse (Multiset.zero_le _) (fun hunbounded => ?_) fun cv' => ?_
        · have hcount := (hP.unbounded hunbounded).2
          rw [wakeUps_add, wakeUps_add, hP.wakeUps_woken hsleepers hunbounded]
          simpa using hcount
        · by_cases hcv : cv' = cv
          · exact Or.inl (hcv ▸ setSleepers_self)
          · refine (hP.alert cv').mono rfl (fun hnone => (setSleepers_ne hcv).trans hnone) ?_ ?_
            · simp
            · rintro ⟨k, hk, hall⟩
              rcases Multiset.mem_cons.mp hk with rfl | hrest
              · -- The senders are woken after the receivers.
                have hreceivers : cv = .notEmpty ∧ cv' = .notFull := by cases cv <;> cases cv' <;> simp_all [Call.wakesAll]
                obtain ⟨rfl, rfl⟩ := hreceivers
                exact ⟨.notifyAll .notFull id, by simp [notifyAllRest], rfl⟩
              · exact ⟨k, by simp [hrest], hall⟩
    | finish id outcome =>
      cases h with
      | finished =>
        rw [Multiset.zero_add]
        refine ⟨hP.capacity_eq, hP.bounded_eq, hP.sleeping, fun hunbounded => ?_, fun cv' => ?_⟩
        · obtain ⟨hsleepers, hcount⟩ := hP.unbounded hunbounded
          rw [wakeUps_cons] at hcount
          exact ⟨hsleepers, by omega⟩
        · exact (hP.alert cv').mono rfl (fun hnone => hnone) (by simp [Call.wakesUp]) (exists_wakesAll_of_cons rfl le_rfl)
  arrive {s s' new rest} h hP := by
    cases h with
    | @called op =>
      rw [Multiset.singleton_add]
      refine ⟨hP.capacity_eq, hP.bounded_eq, hP.sleeping, fun hunbounded => ?_, fun cv' => ?_⟩
      · rw [wakeUps_cons]
        exact hP.unbounded hunbounded
      · exact (hP.alert cv').mono rfl (fun hnone => hnone) (by simp) fun ⟨k, hk, hall⟩ => ⟨k, Multiset.mem_cons_of_mem hk, hall⟩
    | @woke cv sleeper sleepers expired hsleepers =>
      have hle : sleepers ≤ s.sleepers cv := hsleepers ▸ Multiset.le_cons_self _ _
      have hwoken : s.sleepers cv = Multiset.map Prod.fst {(sleeper, expired)} + sleepers := by
        rw [hsleepers, Multiset.map_singleton, Multiset.singleton_add]
      refine hP.rouse hle (fun hunbounded => ?_) fun cv' => ?_
      · have hwake := hP.wakeUps_woken hwoken hunbounded
        rw [Multiset.map_singleton] at hwake
        rw [wakeUps_add, hwake, (hP.unbounded hunbounded).2]
      · refine (hP.alert cv').mono rfl (setSleepers_eq_zero hle) (by simp) fun ⟨k, hk, hall⟩ => ⟨k, ?_, hall⟩
        exact Multiset.mem_add.mpr (Or.inr hk)

end WakeUps

/-! ## Every interleaving -/

section Theorem

variable [Inhabited α] {maxQueueSize capacity limit : Nat} {c : Config (State α) (Call α)}

/-- The most values a channel of a given capacity may hold; capacity zero asks for an unbounded one. -/
def queueLimit (maxQueueSize capacity : Nat) : Nat := if capacity = 0 then maxQueueSize else capacity

theorem opened_capacity : (opened α capacity).shared.channel.capacity maxQueueSize = queueLimit maxQueueSize capacity := by
  unfold opened Channel.capacity queueLimit makeChannelBuffer
  by_cases h : capacity = 0
  · simp [h, ChannelBuffer.capacity]
  · simp [h, Nat.pos_of_ne_zero h, ChannelBuffer.capacity, BoundedChannelBuffer.make]

theorem opened_fifo : (opened α capacity).shared.channel.fifo = ({} : Fifo α) := by
  simp [opened, fifo, ChannelBuffer.makeChannelBuffer_contents]

theorem opened_consistent :
    Consistent maxQueueSize (queueLimit maxQueueSize capacity) (opened α capacity).shared (opened α capacity).calls where
  capacity_eq := opened_capacity
  accounted := ⟨rfl, rfl, rfl⟩
  run := by
    rw [opened_fifo]
    exact .nil
  linearizes := .nil ⟨{}, .nil⟩

theorem opened_attentive :
    Attentive maxQueueSize (queueLimit maxQueueSize capacity) (opened α capacity).shared.channel.buffer.isBounded
      (opened α capacity).shared (opened α capacity).calls where
  capacity_eq := opened_capacity
  bounded_eq := rfl
  sleeping _ _ h := absurd h (Multiset.notMem_zero _)
  unbounded _ := ⟨rfl, rfl⟩
  alert _ := Or.inl rfl

/-- What is in the buffer can be received, in order. -/
theorem exists_drained (c : Config (State α) (Call α)) :
    ∃ c', (channelSystem α maxQueueSize).Reachable c c' ∧ c'.shared.channel.buffer.contents = [] ∧
      receives c'.shared.log = receives c.shared.log ++ c.shared.channel.buffer.contents := by
  obtain ⟨s, calls⟩ := c
  induction hcontents : s.channel.buffer.contents generalizing s calls with
  | nil => exact ⟨⟨s, calls⟩, .refl, hcontents, by simp⟩
  | cons v queue ih =>
    have hvalue : s.channel.buffer.isEmpty = false := by
      rw [← Bool.not_eq_true, ChannelBuffer.isEmpty_iff, hcontents]
      nofun
    obtain ⟨w, buffer, hpop⟩ := ChannelBuffer.pop_isSome hvalue
    have hspec : s.channel.buffer.contents = w :: buffer.contents :=
      (@ChannelBuffer.pop_spec _ maxQueueSize _ _ _ _ hpop).1
    rw [hcontents] at hspec
    cases hspec
    have hdone : s.channel.attempt maxQueueSize false .tryReceive = .done (.received v) { s.channel with buffer } := by
      simp [attempt, tryReceive, hvalue, pop, hpop]
    have harrived : (channelSystem α maxQueueSize).Reachable ⟨s, calls⟩ _ :=
      System.Reachable.refl.arrive (show Arrives s _ {.enter s.nextId .tryReceive none} from .called)
    have hreceived : (channelSystem α maxQueueSize).Reachable ⟨s, calls⟩ _ :=
      harrived.execute (Multiset.singleton_add _ _) (.decided hdone)
    obtain ⟨c', hreach, hempty, hreceives⟩ := ih (State.decide _ s.nextId .tryReceive (.received v) { s.channel with buffer }) _ rfl
    refine ⟨c', System.Reachable.trans hreceived hreach, hempty, hreceives.trans ?_⟩
    simp [receives, State.decide]

/-- What holds in every state an interleaving leads to. -/
structure Linearizable (maxQueueSize limit : Nat) (c : Config (State α) (Call α)) : Prop where
  /-- The log explains the history: every call takes effect once, as the queue allows, between its
      invocation and its return. -/
  linearizes : Linearizes (fun log => ∃ f, Fifo.Run limit log f) c.shared.history c.shared.log
  /-- Every call made has not taken effect, or answers, or has returned. -/
  accounted : Accounted c.shared c.calls
  /-- The buffer is where the effects of the log lead. -/
  run : Fifo.Run limit c.shared.log c.shared.channel.fifo
  /-- What was sent is received, at most once and in order, or still in the buffer. -/
  sends_eq : sends c.shared.log = receives c.shared.log ++ c.shared.channel.buffer.contents
  contents_length : c.shared.channel.buffer.contents.length ≤ limit
  /-- No send succeeds after a `close`. -/
  not_sent : ∀ log e later, c.shared.log = log ++ e :: later → e.res = .closed → ∀ e' ∈ later, e'.res ≠ .sent
  /-- A receiver gets nothing only where nothing sent is left, before or after a `close`. -/
  sends_eq_receives : ∀ log e later, c.shared.log = log ++ e :: later → e.op.isReceive = true →
    (∀ v, e.res ≠ .received v) → sends log = receives log
  /-- What is in the buffer can still be received. -/
  drains : ∃ c', (channelSystem α maxQueueSize).Reachable c c' ∧ c'.shared.channel.buffer.contents = [] ∧
    receives c'.shared.log = sends c.shared.log
  /-- Where calls sleep on an open channel, a wake-up is due for everything they wait for. -/
  wakes : ∀ cv, c.shared.sleepers cv ≠ 0 → c.shared.channel.closed = false →
    c.shared.channel.fifo.available limit cv ≤ wakeUps cv c.calls
  /-- Where calls sleep on a closed channel, its `close` is about to wake them all. -/
  wakesAll : ∀ cv, c.shared.sleepers cv ≠ 0 → c.shared.channel.closed = true → ∃ k ∈ c.calls, k.wakesAll cv = true
  /-- No assertion of the buffer can fail. -/
  safe : ∀ slept op, c.shared.channel.attempt maxQueueSize slept op ≠ .aborted

/-- In every interleaving of the calls on a channel, its history is that of a bounded queue,
    and no wake-up is lost. -/
theorem channel_linearizable (h : (channelSystem α maxQueueSize).Reachable (opened α capacity) c) :
    Linearizable maxQueueSize (queueLimit maxQueueSize capacity) c := by
  have hconsistent := consistent_invariant.reachable h opened_consistent
  have hattentive := attentive_invariant.reachable h opened_attentive
  have hrun := hconsistent.run
  refine
    { linearizes := hconsistent.linearizes
      accounted := hconsistent.accounted
      run := hrun
      sends_eq := hrun.sends_eq
      contents_length := hrun.queue_length
      not_sent := fun log e later heq hclosed e' hlater => (heq ▸ hrun).not_sent hclosed hlater
      sends_eq_receives := fun log e later heq hreceive hnothing => (heq ▸ hrun).sends_eq_receives hreceive hnothing
      drains := ?_
      wakes := fun cv hsleepers hopen => ?_
      wakesAll := fun cv hsleepers hclosed => ?_
      safe := fun slept op => attempt_ne_aborted }
  · obtain ⟨c', hreach, hempty, hreceives⟩ := exists_drained c
    exact ⟨c', hreach, hempty, hreceives.trans hrun.sends_eq.symm⟩
  · rcases hattentive.alert cv with hnone | ⟨-, hle⟩ | ⟨hclosed, -⟩
    · exact absurd hnone hsleepers
    · exact hle
    · cases hopen.symm.trans hclosed
  · rcases hattentive.alert cv with hnone | ⟨hopen, -⟩ | ⟨-, hall⟩
    · exact absurd hnone hsleepers
    · cases hopen.symm.trans hclosed
    · exact hall

/-- A receiver sleeps, a sender sends, and its notification is due. -/
theorem channel_linearizable_asleep : ∃ c, c.shared.sleepers .notEmpty ≠ 0 ∧
    c.shared.channel.buffer.contents = [7] ∧ Linearizable 100 (queueLimit 100 1) (c : Config (State Nat) (Call Nat)) := by
  have hcalled : (channelSystem Nat 100).Reachable (opened Nat 1) _ :=
    System.Reachable.refl.arrive (show Arrives _ _ {.enter 0 (.receive ⟨false, false⟩) none} from .called)
  have hasleep : (channelSystem Nat 100).Reachable (opened Nat 1) _ :=
    hcalled.execute (Multiset.singleton_add _ _) (.sleeps rfl rfl)
  have hsending : (channelSystem Nat 100).Reachable (opened Nat 1) _ :=
    hasleep.arrive (show Arrives _ _ {.enter 1 (.send 7 ⟨true, false⟩) none} from .called)
  have hsent : (channelSystem Nat 100).Reachable (opened Nat 1) _ :=
    hsending.execute (Multiset.singleton_add _ _) (.decided rfl)
  exact ⟨_, by simp [State.decide], rfl, channel_linearizable hsent⟩

end Theorem

end Channel

end Luma.Concurrency
