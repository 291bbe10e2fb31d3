-- SUMMARY: What a channel is for, a bounded queue that can be closed, and its critical sections as steps of it.
import Luma.Concurrency.Channel

/-! # Channel Queue

The purpose of a channel is a bounded first-in first-out queue that can be
closed. Each critical section that decides a call is one step of that queue. -/

namespace Luma.Concurrency

open Interleaving Linearizability

namespace Channel

variable {α : Type}

/-! ## The queue -/

/-- The value a call wants to send. -/
def Op.value : Op α → Option α
  | .send v _ | .trySend v => some v
  | _ => none

/-- A call that wants to receive. -/
def Op.isReceive : Op α → Bool
  | .receive _ | .tryReceive => true
  | _ => false

/-- The results of a call that did nothing while the queue was open. -/
def Outcome.isNothing : Outcome α → Bool
  | .timedOut | .failed .full | .failed .empty | .failed .cancelled => true
  | _ => false

/-- A bounded queue that can be closed: the values in it, oldest first. -/
structure Fifo (α : Type) where
  queue : List α := []
  closed : Bool := false

/-- What a call does to the queue. -/
inductive Fifo.Step (capacity : Nat) : Fifo α → Op α → Outcome α → Fifo α → Prop where
  | sent {queue : List α} {op : Op α} {v : α} (hop : op.value = some v) (hroom : queue.length < capacity) :
      Step capacity ⟨queue, false⟩ op .sent ⟨queue ++ [v], false⟩
  | notSent {queue : List α} {op : Op α} {v : α} {outcome : Outcome α} (hop : op.value = some v)
      (hfull : capacity ≤ queue.length) (houtcome : outcome.isNothing = true) :
      Step capacity ⟨queue, false⟩ op outcome ⟨queue, false⟩
  | sendClosed {queue : List α} {op : Op α} {v : α} (hop : op.value = some v) :
      Step capacity ⟨queue, true⟩ op (.failed .closed) ⟨queue, true⟩
  | received {queue : List α} {closed : Bool} {op : Op α} {v : α} (hop : op.isReceive = true) :
      Step capacity ⟨v :: queue, closed⟩ op (.received v) ⟨queue, closed⟩
  | notReceived {op : Op α} {outcome : Outcome α} (hop : op.isReceive = true) (houtcome : outcome.isNothing = true) :
      Step capacity ⟨[], false⟩ op outcome ⟨[], false⟩
  | drained {op : Op α} (hop : op.isReceive = true) : Step capacity ⟨[], true⟩ op (.failed .drained) ⟨[], true⟩
  | closed {queue : List α} {closed : Bool} : Step capacity ⟨queue, closed⟩ .close .closed ⟨queue, true⟩

/-- The calls of a log take effect one after the other. -/
inductive Fifo.Run (capacity : Nat) : List (Effect Nat (Op α) (Outcome α)) → Fifo α → Prop where
  | nil : Run capacity [] {}
  | concat {log : List (Effect Nat (Op α) (Outcome α))} {f f' : Fifo α} {e : Effect Nat (Op α) (Outcome α)}
      (h : Run capacity log f) (hstep : Step capacity f e.op e.res f') : Run capacity (log ++ [e]) f'

/-- The values whose send succeeded, in order. -/
def sends (log : List (Effect Nat (Op α) (Outcome α))) : List α :=
  log.filterMap fun e => match e.res with
    | .sent => e.op.value
    | _ => none

/-- The values received, in order. -/
def receives (log : List (Effect Nat (Op α) (Outcome α))) : List α :=
  log.filterMap fun e => match e.res with
    | .received v => some v
    | _ => none

/-- What was sent and not received is in the queue, in order. -/
theorem Fifo.Run.sends_eq {capacity : Nat} {log : List (Effect Nat (Op α) (Outcome α))} {f : Fifo α}
    (h : Fifo.Run capacity log f) : sends log = receives log ++ f.queue := by
  induction h with
  | nil => rfl
  | @concat log f f' e _ hstep ih =>
    obtain ⟨id, op, res⟩ := e
    cases hstep with
    | sent hop => simp_all [sends, receives]
    | received hop => simp_all [sends, receives]
    | notSent hop _ houtcome => cases res <;> simp_all [sends, receives, Outcome.isNothing]
    | notReceived hop houtcome => cases res <;> simp_all [sends, receives, Outcome.isNothing]
    | _ => simp_all [sends, receives]

theorem Fifo.Run.queue_length {capacity : Nat} {log : List (Effect Nat (Op α) (Outcome α))} {f : Fifo α}
    (h : Fifo.Run capacity log f) : f.queue.length ≤ capacity := by
  induction h with
  | nil => exact Nat.zero_le _
  | @concat log f f' e _ hstep ih =>
    obtain ⟨id, op, res⟩ := e
    cases hstep <;> grind

/-- The queue is closed from the first `close` on. -/
theorem Fifo.Run.closed_iff {capacity : Nat} {log : List (Effect Nat (Op α) (Outcome α))} {f : Fifo α}
    (h : Fifo.Run capacity log f) : f.closed = true ↔ ∃ e ∈ log, e.res = .closed := by
  induction h with
  | nil => simp
  | @concat log f f' e _ hstep ih =>
    obtain ⟨id, op, res⟩ := e
    simp only [List.mem_append, List.mem_singleton, or_and_right, exists_or, exists_eq_left, ← ih]
    cases hstep with
    | notSent hop _ houtcome => cases res <;> simp_all [Outcome.isNothing]
    | notReceived hop houtcome => cases res <;> simp_all [Outcome.isNothing]
    | _ => simp_all

/-- What a call sleeping on a condition variable waits for: how many values, or how much room. -/
def Fifo.available (capacity : Nat) (f : Fifo α) : Condition → Nat
  | .notEmpty => f.queue.length
  | .notFull => capacity - f.queue.length

/-- Every prefix of a run is a run. -/
theorem Fifo.Run.of_append {capacity : Nat} {log later : List (Effect Nat (Op α) (Outcome α))} {f : Fifo α}
    (h : Fifo.Run capacity (log ++ later) f) : ∃ f', Fifo.Run capacity log f' := by
  induction later using List.reverseRecOn generalizing f with
  | nil => exact ⟨f, by simpa using h⟩
  | append_singleton later e ih =>
    rw [← List.append_assoc] at h
    generalize hwhole : log ++ later ++ [e] = whole at h
    cases h with
    | nil => simp at hwhole
    | concat h hstep =>
      obtain ⟨rfl, -⟩ := List.append_inj' hwhole rfl
      exact ih h

/-- Every effect of a run is a step of the queue, where the effects before it have led. -/
theorem Fifo.Run.step {capacity : Nat} {log later : List (Effect Nat (Op α) (Outcome α))}
    {e : Effect Nat (Op α) (Outcome α)} {f : Fifo α} (h : Fifo.Run capacity (log ++ e :: later) f) :
    ∃ g g', Fifo.Run capacity log g ∧ Fifo.Step capacity g e.op e.res g' := by
  rw [List.append_cons] at h
  obtain ⟨g', h⟩ := h.of_append
  generalize hwhole : log ++ [e] = whole at h
  cases h with
  | nil => simp at hwhole
  | @concat log' g _ e' h hstep =>
    obtain ⟨rfl, heq⟩ := List.append_inj' hwhole rfl
    cases heq
    exact ⟨g, g', h, hstep⟩

/-- No send succeeds after a `close`. -/
theorem Fifo.Run.not_sent {capacity : Nat} {log later : List (Effect Nat (Op α) (Outcome α))}
    {e e' : Effect Nat (Op α) (Outcome α)} {f : Fifo α} (h : Fifo.Run capacity (log ++ e :: later) f)
    (hclosed : e.res = .closed) (hlater : e' ∈ later) : e'.res ≠ .sent := by
  obtain ⟨before, after, rfl⟩ := List.append_of_mem hlater
  rw [← List.cons_append, ← List.append_assoc] at h
  obtain ⟨g, g', hrun, hstep⟩ := h.step
  have hg : g.closed = true := hrun.closed_iff.mpr ⟨e, by simp, hclosed⟩
  obtain ⟨id, op, res⟩ := e'
  rintro rfl
  cases hstep with
  | sent => cases hg
  | notSent _ _ houtcome => cases houtcome
  | notReceived _ houtcome => cases houtcome

/-- A receiver that gets nothing finds everything received that was sent. -/
theorem Fifo.Run.sends_eq_receives {capacity : Nat} {log later : List (Effect Nat (Op α) (Outcome α))}
    {e : Effect Nat (Op α) (Outcome α)} {f : Fifo α} (h : Fifo.Run capacity (log ++ e :: later) f)
    (hreceive : e.op.isReceive = true) (hnothing : ∀ v, e.res ≠ .received v) : sends log = receives log := by
  obtain ⟨g, g', hrun, hstep⟩ := h.step
  obtain ⟨id, op, res⟩ := e
  have hempty : g.queue = [] := by
    cases hstep with
    | received => exact absurd rfl (hnothing _)
    | notReceived => rfl
    | drained => rfl
    | closed => cases hreceive
    | sent hop => cases op <;> simp_all [Op.isReceive, Op.value]
    | notSent hop => cases op <;> simp_all [Op.isReceive, Op.value]
    | sendClosed hop => cases op <;> simp_all [Op.isReceive, Op.value]
  rw [hrun.sends_eq, hempty, List.append_nil]

/-! ## Critical sections -/

section CriticalSections

variable [Inhabited α] {maxQueueSize : Nat} {ch ch' : Channel α} {op : Op α} {v : α} {outcome : Outcome α} {slept : Bool}

/-- The queue a channel holds. -/
def fifo (ch : Channel α) : Fifo α := ⟨ch.buffer.contents, ch.closed⟩

/-- The most values a channel may hold. -/
def capacity (maxQueueSize : Nat) (ch : Channel α) : Nat := ch.buffer.capacity maxQueueSize

/-- A step of the queue that leaves the kind of buffer as it is. -/
def Refines (maxQueueSize : Nat) (ch : Channel α) (op : Op α) (outcome : Outcome α) (ch' : Channel α) : Prop :=
  Fifo.Step (ch.capacity maxQueueSize) ch.fifo op outcome ch'.fifo ∧
    ch'.capacity maxQueueSize = ch.capacity maxQueueSize ∧ ch'.buffer.isBounded = ch.buffer.isBounded

theorem push_refines (h : ch.push maxQueueSize v = .done outcome ch') (hop : op.value = some v)
    (hopen : ch.closed = false) : Refines maxQueueSize ch op outcome ch' := by
  unfold push at h
  split at h
  next buffer hpush =>
    cases h
    obtain ⟨hcontents, hcapacity, hbounded, hroom⟩ := ChannelBuffer.push_spec hpush
    refine ⟨?_, hcapacity, hbounded⟩
    simp only [fifo, hcontents, hopen]
    exact .sent hop hroom
  · cases h

theorem pop_refines (h : ch.pop = .done outcome ch') (hop : op.isReceive = true) :
    Refines maxQueueSize ch op outcome ch' := by
  unfold pop at h
  split at h
  next v buffer hpop =>
    cases h
    obtain ⟨hcontents, hcapacity, hbounded⟩ := @ChannelBuffer.pop_spec _ maxQueueSize _ _ _ _ hpop
    refine ⟨?_, hcapacity, hbounded⟩
    simp only [fifo, hcontents]
    exact .received hop
  · cases h

/-- A call that finds the channel as it must be for its outcome, and leaves it so. -/
theorem refines_self (h : Fifo.Step (ch.capacity maxQueueSize) ch.fifo op outcome ch.fifo) :
    Refines maxQueueSize ch op outcome ch := ⟨h, rfl, rfl⟩

theorem closed_refines (hop : op.value = some v) (hclosed : ch.closed = true) :
    Refines maxQueueSize ch op (.failed .closed) ch := by
  refine refines_self ?_
  simp only [fifo, hclosed]
  exact .sendClosed hop

theorem full_refines (hop : op.value = some v) (hopen : ch.closed = false)
    (hfull : ch.buffer.isFull maxQueueSize = true) (houtcome : outcome.isNothing = true) :
    Refines maxQueueSize ch op outcome ch := by
  refine refines_self ?_
  simp only [fifo, hopen]
  exact .notSent hop (ChannelBuffer.isFull_iff.mp hfull) houtcome

theorem empty_refines (hop : op.isReceive = true) (hopen : ch.closed = false)
    (hempty : ch.buffer.isEmpty = true) (houtcome : outcome.isNothing = true) :
    Refines maxQueueSize ch op outcome ch := by
  refine refines_self ?_
  simp only [fifo, hopen, ChannelBuffer.isEmpty_iff.mp hempty]
  exact .notReceived hop houtcome

theorem drained_refines (hop : op.isReceive = true) (hclosed : ch.closed = true)
    (hempty : ch.buffer.isEmpty = true) : Refines maxQueueSize ch op (.failed .drained) ch := by
  refine refines_self ?_
  simp only [fifo, hclosed, ChannelBuffer.isEmpty_iff.mp hempty]
  exact .drained hop

theorem awaitRoom_refines (h : ch.awaitRoom maxQueueSize v = .done outcome ch') (hop : op.value = some v) :
    Refines maxQueueSize ch op outcome ch' := by
  unfold awaitRoom at h
  split at h
  · split at h
    next hclosed =>
      cases h
      exact closed_refines hop hclosed
    next hopen => exact push_refines h hop (by simpa using hopen)
  · cases h

theorem send_refines (h : ch.send maxQueueSize v = .done outcome ch') (hop : op.value = some v) :
    Refines maxQueueSize ch op outcome ch' := by
  unfold send at h
  split at h
  next hclosed =>
    cases h
    exact closed_refines hop hclosed
  next hopen =>
    rw [Bool.not_eq_true] at hopen
    split at h
    · exact awaitRoom_refines h hop
    · split at h
      next hfull =>
        cases h
        exact full_refines hop hopen hfull rfl
      · exact push_refines h hop hopen

theorem trySend_refines (h : ch.trySend maxQueueSize v = .done outcome ch') (hop : op.value = some v) :
    Refines maxQueueSize ch op outcome ch' := by
  unfold trySend at h
  split at h
  next hclosed =>
    cases h
    exact closed_refines hop hclosed
  next hopen =>
    rw [Bool.not_eq_true] at hopen
    split at h
    next hfull =>
      cases h
      exact full_refines hop hopen hfull rfl
    · exact push_refines h hop hopen

theorem receive_refines (h : ch.receive = .done outcome ch') (hop : op.isReceive = true) :
    Refines maxQueueSize ch op outcome ch' := by
  unfold receive at h
  split at h
  next hready =>
    split at h
    next hempty =>
      cases h
      have hclosed : ch.closed = true := by simpa [hasValueOrClosed, hempty] using hready
      exact drained_refines hop hclosed hempty
    · exact pop_refines h hop
  · cases h

theorem tryReceive_refines (h : ch.tryReceive = .done outcome ch') (hop : op.isReceive = true) :
    Refines maxQueueSize ch op outcome ch' := by
  unfold tryReceive at h
  split at h
  next hempty =>
    split at h
    next hclosed =>
      cases h
      exact drained_refines hop hclosed hempty
    next hopen =>
      cases h
      exact empty_refines hop (by simpa using hopen) hempty rfl
  · exact pop_refines h hop

/-- Every critical section that decides a call is a step of the queue. -/
theorem attempt_refines (h : ch.attempt maxQueueSize slept op = .done outcome ch') :
    Refines maxQueueSize ch op outcome ch' := by
  cases op with
  | send v wait =>
    cases slept with
    | false => exact send_refines h rfl
    | true => exact awaitRoom_refines h rfl
  | receive wait => exact receive_refines h rfl
  | trySend v => exact trySend_refines h rfl
  | tryReceive => exact tryReceive_refines h rfl
  | close =>
    cases h
    exact ⟨.closed, rfl, rfl⟩

omit [Inhabited α] in
theorem push_of_room (h : ch.buffer.isFull maxQueueSize = false) (v : α) :
    ∃ ch', ch.push maxQueueSize v = .done .sent ch' := by
  obtain ⟨buffer, hpush⟩ := ChannelBuffer.push_isSome h v
  exact ⟨{ ch with buffer }, by simp only [push, hpush]⟩

theorem pop_of_value (h : ch.buffer.isEmpty = false) : ∃ v ch', ch.pop = .done (.received v) ch' := by
  obtain ⟨v, buffer, hpop⟩ := ChannelBuffer.pop_isSome h
  exact ⟨v, { ch with buffer }, by simp only [pop, hpop]⟩

theorem awaitRoom_blocked (h : ch.awaitRoom maxQueueSize v = .blocked) :
    ch.closed = false ∧ ch.buffer.isFull maxQueueSize = true := by
  unfold awaitRoom at h
  split at h
  next hready =>
    split at h
    · cases h
    next hopen =>
      have hroom : ch.buffer.isFull maxQueueSize = false := by simpa [hasRoomOrClosed, hopen] using hready
      obtain ⟨ch', hpush⟩ := push_of_room hroom v
      rw [hpush] at h
      cases h
  next hfull => simpa [hasRoomOrClosed] using hfull

theorem send_blocked (h : ch.send maxQueueSize v = .blocked) :
    ch.closed = false ∧ ch.buffer.isFull maxQueueSize = true ∧ ch.buffer.isBounded = true := by
  unfold send at h
  split at h
  · cases h
  · split at h
    next hbounded =>
      obtain ⟨hopen, hfull⟩ := awaitRoom_blocked h
      exact ⟨hopen, hfull, hbounded⟩
    · split at h
      · cases h
      next hroom =>
        obtain ⟨ch', hpush⟩ := push_of_room (Bool.not_eq_true _ ▸ hroom) v
        rw [hpush] at h
        cases h

theorem receive_blocked (h : ch.receive = .blocked) : ch.closed = false ∧ ch.buffer.isEmpty = true := by
  unfold receive at h
  split at h
  · split at h
    · cases h
    next hvalue =>
      obtain ⟨v, ch', hpop⟩ := pop_of_value (Bool.not_eq_true _ ▸ hvalue)
      rw [hpop] at h
      cases h
  next hwait => simpa [hasValueOrClosed, and_comm] using hwait

/-- A call blocks only on an open channel that has nothing for it, and may give up there. -/
theorem attempt_blocked (h : ch.attempt maxQueueSize slept op = .blocked) {cv : Condition} {wait : Wait}
    (hwait : op.waitsOn = some (cv, wait)) :
    ch.closed = false ∧ ch.fifo.available (ch.capacity maxQueueSize) cv = 0 ∧
      (cv = .notFull → slept = false → ch.buffer.isBounded = true) ∧
        ∀ outcome : Outcome α, outcome.isNothing = true → Refines maxQueueSize ch op outcome ch := by
  cases op with
  | send v w =>
    cases hwait
    have hblocked : ch.closed = false ∧ ch.buffer.isFull maxQueueSize = true ∧
        (slept = false → ch.buffer.isBounded = true) := by
      cases slept with
      | false =>
        obtain ⟨hopen, hfull, hbounded⟩ := send_blocked h
        exact ⟨hopen, hfull, fun _ => hbounded⟩
      | true =>
        obtain ⟨hopen, hfull⟩ := awaitRoom_blocked h
        exact ⟨hopen, hfull, nofun⟩
    obtain ⟨hopen, hfull, hbounded⟩ := hblocked
    refine ⟨hopen, ?_, fun _ => hbounded, fun outcome houtcome => full_refines rfl hopen hfull houtcome⟩
    exact Nat.sub_eq_zero_of_le (ChannelBuffer.isFull_iff.mp hfull)
  | receive w =>
    cases hwait
    obtain ⟨hopen, hempty⟩ := receive_blocked h
    refine ⟨hopen, ?_, nofun, fun outcome houtcome => empty_refines rfl hopen hempty houtcome⟩
    exact List.length_eq_zero_iff.mpr (ChannelBuffer.isEmpty_iff.mp hempty)
  | _ => cases hwait

/-- No critical section fails an assertion of the buffer. -/
theorem attempt_ne_aborted : ch.attempt maxQueueSize slept op ≠ .aborted := by
  have hpush : ∀ v, ch.buffer.isFull maxQueueSize = false → ch.push maxQueueSize v ≠ .aborted := by
    intro v hroom
    obtain ⟨ch', hpush⟩ := push_of_room hroom v
    simp [hpush]
  have hpop : ch.buffer.isEmpty = false → ch.pop ≠ .aborted := by
    intro hvalue
    obtain ⟨v, ch', hpop⟩ := pop_of_value hvalue
    simp [hpop]
  cases op with
  | send v wait =>
    have hawait : ch.awaitRoom maxQueueSize v ≠ .aborted := by
      unfold awaitRoom hasRoomOrClosed
      split <;> grind
    cases slept <;> grind [attempt, send]
  | receive wait => grind [attempt, receive]
  | trySend v => grind [attempt, trySend]
  | tryReceive => grind [attempt, tryReceive]
  | close => nofun

end CriticalSections

end Channel

end Luma.Concurrency
