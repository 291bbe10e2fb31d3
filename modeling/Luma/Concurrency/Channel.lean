-- SUMMARY: The operations of a channel, their critical sections and their sleeping and waking, interleaved.
import Luma.Concurrency.ChannelBuffer
import Luma.Library.Interleaving
import Luma.Library.Linearizability
import Mathlib.Data.Multiset.MapFold
import Mathlib.Logic.Function.Basic

/-! # Channels

A channel passes values between tasks. A critical section under the mutex is one
step; going to sleep on a condition variable, waking up and each notification
outside the mutex are steps of their own. Waking up is possible at any time, as
for any condition variable. -/

namespace Luma.Concurrency

open Interleaving Linearizability

/-! ## Operations -/

inductive ChannelError where
  | closed
  | drained
  | full
  | empty
  | cancelled
  deriving DecidableEq

def ChannelError.message : ChannelError → String
  | .closed => "channel is closed"
  | .drained => "channel is closed and drained"
  | .full => "channel buffer is full"
  | .empty => "channel buffer is empty"
  | .cancelled => "task cancelled"

structure Channel (α : Type) where
  buffer : ChannelBuffer α
  closed : Bool := false

namespace Channel

variable {α : Type}

/-- How a blocking call waits: with a deadline, and with a cancellation token. -/
structure Wait where
  timed : Bool
  cancellable : Bool

/-- A call. `send` and `receive` stand for `send_timeout` and `receive_timeout` when
    their wait is timed. -/
inductive Op (α : Type) where
  | send (value : α) (wait : Wait)
  | receive (wait : Wait)
  | trySend (value : α)
  | tryReceive
  | close

inductive Outcome (α : Type) where
  | sent
  | received (value : α)
  | closed
  | timedOut
  | failed (error : ChannelError)

/-- What a critical section does. It is `aborted` where an assertion of the buffer fails. -/
inductive Attempt (α : Type) where
  | done (outcome : Outcome α) (channel : Channel α)
  | blocked
  | aborted

def hasValueOrClosed (ch : Channel α) : Bool := !ch.buffer.isEmpty || ch.closed

def hasRoomOrClosed (maxQueueSize : Nat) (ch : Channel α) : Bool := ch.closed || !ch.buffer.isFull maxQueueSize

def push (maxQueueSize : Nat) (ch : Channel α) (v : α) : Attempt α :=
  match ch.buffer.push maxQueueSize v with
  | some buffer => .done .sent { ch with buffer }
  | none => .aborted

def pop [Inhabited α] (ch : Channel α) : Attempt α :=
  match ch.buffer.pop with
  | some (v, buffer) => .done (.received v) { ch with buffer }
  | none => .aborted

/-- The wait for room of a bounded channel, and what follows it. -/
def awaitRoom (maxQueueSize : Nat) (ch : Channel α) (v : α) : Attempt α :=
  if ch.hasRoomOrClosed maxQueueSize then
    if ch.closed then .done (.failed .closed) ch else ch.push maxQueueSize v
  else .blocked

def send (maxQueueSize : Nat) (ch : Channel α) (v : α) : Attempt α :=
  if ch.closed then .done (.failed .closed) ch
  else if ch.buffer.isBounded then ch.awaitRoom maxQueueSize v
  else if ch.buffer.isFull maxQueueSize then .done (.failed .full) ch
  else ch.push maxQueueSize v

def receive [Inhabited α] (ch : Channel α) : Attempt α :=
  if ch.hasValueOrClosed then
    if ch.buffer.isEmpty then .done (.failed .drained) ch else ch.pop
  else .blocked

def trySend (maxQueueSize : Nat) (ch : Channel α) (v : α) : Attempt α :=
  if ch.closed then .done (.failed .closed) ch
  else if ch.buffer.isFull maxQueueSize then .done (.failed .full) ch
  else ch.push maxQueueSize v

def tryReceive [Inhabited α] (ch : Channel α) : Attempt α :=
  if ch.buffer.isEmpty then
    if ch.closed then .done (.failed .drained) ch else .done (.failed .empty) ch
  else ch.pop

/-- One critical section of a call. A call that slept is inside its wait already. -/
def attempt [Inhabited α] (maxQueueSize : Nat) (ch : Channel α) (slept : Bool) : Op α → Attempt α
  | .send v _ => if slept then ch.awaitRoom maxQueueSize v else ch.send maxQueueSize v
  | .receive _ => ch.receive
  | .trySend v => ch.trySend maxQueueSize v
  | .tryReceive => ch.tryReceive
  | .close => .done .closed { ch with closed := true }

/-! ## Interleaving -/

/-- The condition variables. -/
inductive Condition where
  | notEmpty
  | notFull
  deriving DecidableEq

/-- The condition variable a blocked call sleeps on, and how. -/
def Op.waitsOn : Op α → Option (Condition × Wait)
  | .send _ wait => some (.notFull, wait)
  | .receive wait => some (.notEmpty, wait)
  | _ => none

/-- What a call has still to do. -/
inductive Call (α : Type) where
  /-- Take the mutex: the first time, or after a sleep that may have `expired`. -/
  | enter (id : Nat) (op : Op α) (slept : Option Bool)
  | notifyOne (cv : Condition) (id : Nat) (outcome : Outcome α)
  | notifyAll (cv : Condition) (id : Nat)
  | finish (id : Nat) (outcome : Outcome α)

/-- The channel, the calls asleep on its condition variables, and the history of its calls
    with the order of their effects. -/
structure State (α : Type) where
  channel : Channel α
  sleepers : Condition → Multiset (Nat × Op α) := fun _ => 0
  nextId : Nat := 0
  history : List (Event Nat (Op α) (Outcome α)) := []
  log : List (Effect Nat (Op α) (Outcome α)) := []

def State.decide (s : State α) (id : Nat) (op : Op α) (outcome : Outcome α) (channel : Channel α) : State α :=
  { s with channel, log := s.log ++ [⟨id, op, outcome⟩] }

def State.setSleepers (s : State α) (cv : Condition) (sleepers : Multiset (Nat × Op α)) : State α :=
  { s with sleepers := Function.update s.sleepers cv sleepers }

/-- What a call does after its critical section, without the mutex. -/
def Outcome.rest (channel : Channel α) (id : Nat) : Outcome α → Call α
  | .sent => .notifyOne .notEmpty id .sent
  | .received v =>
    if channel.buffer.isBounded then .notifyOne .notFull id (.received v) else .finish id (.received v)
  | .closed => .notifyAll .notEmpty id
  | outcome => .finish id outcome

/-- `close` wakes the receivers, then the senders. -/
def notifyAllRest (id : Nat) : Condition → Call α
  | .notEmpty => .notifyAll .notFull id
  | .notFull => .finish id .closed

/-- A call that wakes up takes the mutex again. -/
def wake (sleeper : Nat × Op α) (expired : Bool) : Call α := .enter sleeper.1 sleeper.2 (some expired)

/-- One atomic step of a call. -/
inductive Executes [Inhabited α] (maxQueueSize : Nat) : State α → Call α → State α → Multiset (Call α) → Prop where
  | decided {s : State α} {id : Nat} {op : Op α} {slept : Option Bool} {outcome : Outcome α} {channel : Channel α}
      (h : s.channel.attempt maxQueueSize slept.isSome op = .done outcome channel) :
      Executes maxQueueSize s (.enter id op slept) (s.decide id op outcome channel) {outcome.rest channel id}
  | timedOut {s : State α} {id : Nat} {op : Op α} {slept : Option Bool} {cv : Condition} {wait : Wait}
      (h : s.channel.attempt maxQueueSize slept.isSome op = .blocked) (hwait : op.waitsOn = some (cv, wait))
      (htimed : wait.timed = true) :
      Executes maxQueueSize s (.enter id op slept) (s.decide id op .timedOut s.channel) {.finish id .timedOut}
  -- The untimed wait looks at its token only when a polling interval has passed.
  | cancelled {s : State α} {id : Nat} {op : Op α} {slept : Option Bool} {cv : Condition} {wait : Wait}
      (h : s.channel.attempt maxQueueSize slept.isSome op = .blocked) (hwait : op.waitsOn = some (cv, wait))
      (hcancel : wait.cancellable = true) (hcheck : wait.timed = true ∨ slept = some true) :
      Executes maxQueueSize s (.enter id op slept) (s.decide id op (.failed .cancelled) s.channel)
        {.finish id (.failed .cancelled)}
  | sleeps {s : State α} {id : Nat} {op : Op α} {slept : Option Bool} {cv : Condition} {wait : Wait}
      (h : s.channel.attempt maxQueueSize slept.isSome op = .blocked) (hwait : op.waitsOn = some (cv, wait)) :
      Executes maxQueueSize s (.enter id op slept) (s.setSleepers cv ((id, op) ::ₘ s.sleepers cv)) 0
  | notified {s : State α} {cv : Condition} {id : Nat} {outcome : Outcome α} {sleeper : Nat × Op α}
      {sleepers : Multiset (Nat × Op α)} {expired : Bool} (h : s.sleepers cv = sleeper ::ₘ sleepers) :
      Executes maxQueueSize s (.notifyOne cv id outcome) (s.setSleepers cv sleepers)
        {wake sleeper expired, .finish id outcome}
  | notifiedNobody {s : State α} {cv : Condition} {id : Nat} {outcome : Outcome α} (h : s.sleepers cv = 0) :
      Executes maxQueueSize s (.notifyOne cv id outcome) s {.finish id outcome}
  | notifiedAll {s : State α} {cv : Condition} {id : Nat} {woken : Multiset ((Nat × Op α) × Bool)}
      (h : woken.map Prod.fst = s.sleepers cv) :
      Executes maxQueueSize s (.notifyAll cv id) (s.setSleepers cv 0)
        (woken.map (fun w => wake w.1 w.2) + {notifyAllRest id cv})
  | finished {s : State α} {id : Nat} {outcome : Outcome α} :
      Executes maxQueueSize s (.finish id outcome) { s with history := s.history ++ [.returned id outcome] } 0

/-- Tasks call at any time, and a sleeping call may wake up at any time. -/
inductive Arrives : State α → State α → Multiset (Call α) → Prop where
  | called {s : State α} {op : Op α} :
      Arrives s { s with nextId := s.nextId + 1, history := s.history ++ [.invoked s.nextId op] }
        {.enter s.nextId op none}
  | woke {s : State α} {cv : Condition} {sleeper : Nat × Op α} {sleepers : Multiset (Nat × Op α)} {expired : Bool}
      (h : s.sleepers cv = sleeper ::ₘ sleepers) : Arrives s (s.setSleepers cv sleepers) {wake sleeper expired}

/-- All interleavings of the calls on one channel. -/
def channelSystem (α : Type) [Inhabited α] (maxQueueSize : Nat) : System (State α) (Call α) :=
  ⟨Executes maxQueueSize, Arrives⟩

/-- A channel that has just been created. -/
def opened (α : Type) [Inhabited α] (capacity : Nat) : Config (State α) (Call α) :=
  ⟨{ channel := { buffer := makeChannelBuffer capacity } }, 0⟩

end Channel

end Luma.Concurrency
