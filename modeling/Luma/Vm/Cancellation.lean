-- SUMMARY: How a task ends, and what a cancellation does on its way out of a VM.
import Luma.Vm.Control

/-! # Cancellation

A task observes its cancellation at calls, at the end of loops and where it waits, by an
exception. From then on only two kinds of code may run: native functions that the
exception passes through, and the `finally` bodies it passes. `Unwinding` describes the
runs in which nothing stops it. -/

namespace Luma.Vm

open Codec Stateful

variable {V N W : Type}

/-! ## The end of a task -/

/-- What those who wait for a task see. -/
inductive TaskOutcome (V : Type) where
  | value (v : V)
  | cancelled
  | failed (e : Raised V)

/-- How a task ends whose VM has finished. An error of a task that is cancelled counts as
    its cancellation. -/
def buildSpawnFuture (isCancelled : Bool) : Except (Raised V) V → TaskOutcome V
  | .ok v => .value v
  | .error .foreign => .failed .foreign
  | .error (.cancelled _) => .cancelled
  | .error (.error message payload) =>
    if isCancelled then .cancelled else .failed (.error message payload)

section

variable (rt : Runtime V N W)

/-! ## Exceptions in a run -/

/-- The next step of the VM raises an exception in the dispatch loop. -/
inductive Raises (m : Machine V N W) : Raised V → State V W → Prop where
  | instruction {e : Raised V} {s : State V W} (hmode : m.mode = .running)
      (hrun : (dispatch rt).runFrom { m.state with world := rt.environment m.state.world } =
        (.error (.raised e), s)) : Raises m e s
  | native {e : Raised V} (hmode : m.mode = .native (.finish (.error e))) : Raises m e m.state
  | overflow {v : V} {e : Raised V} {s : State V W} (hmode : m.mode = .native (.finish (.ok v)))
      (hrun : (push v : Exec V N W Unit).runFrom m.state = (.error (.raised e), s)) : Raises m e s

/-- No handler was installed with the stack full: there is room for an error value. -/
def HasRoom (s : State V W) : Prop := ∀ h ∈ s.handlers, h.stackDepth < maxStack

/-! ## Finally bodies -/

/-- A `finally` body that was entered by an exception: the code of its handler, its frame,
    and the place of its error value on the stack. -/
structure Cleanup where
  function : FunctionId
  catchIp : Nat
  frameIndex : Nat
  stackDepth : Nat
  /-- The native calls that were suspended. -/
  nativeCalls : Nat
  deriving DecidableEq, Repr

namespace Cleanup

variable (body : Cleanup)

/-- The activation of the dispatch loop that executes the body, or one of a callback inside.
    In it, frames above `floor` stay. -/
inductive Inside : List (Activation N) → (baseDepth floor : Nat) → Prop where
  | here {activations : List (Activation N)} {baseDepth : Nat}
      (hcalls : activations.length = body.nativeCalls) (hbase : baseDepth ≤ body.frameIndex) :
      Inside activations baseDepth body.frameIndex
  | callback {a : Activation N} {activations : List (Activation N)} {baseDepth floor : Nat}
      (h : Inside activations a.previousBase floor) (hbase : floor < baseDepth)
      (hsaved : body.stackDepth < a.savedStackSize) : Inside (a :: activations) baseDepth baseDepth

/-- The VM executes the body, or what the body calls: its frame and its error value are there. -/
structure Contains (m : Machine V N W) : Prop where
  active : m.mode = .running ∨ ∃ action, m.mode = .native action
  frame : ∃ cf, frameAt m.state.frames body.frameIndex = some cf ∧ cf.function = body.function
  inside : ∃ floor, body.Inside m.activations m.state.baseDepth floor ∧
    floor < m.state.frames.length
  height : body.stackDepth < m.state.stack.length

/-- The exception is caught inside the body. -/
def Recovers (e : Raised V) (s : State V W) : Prop :=
  ∃ message payload h handlers, e = .error message payload ∧ s.handlers = h :: handlers ∧
    isValidHandler rt s h = true ∧ h.stackDepth < maxStack ∧
    (body.frameIndex < h.frameIndex ∨
      h.frameIndex = body.frameIndex ∧ body.stackDepth < h.stackDepth)

/-- The next step does not leave the body: it takes no value from below, does not return from
    its frame, and raises no exception that leaves it. -/
structure Keeps (m : Machine V N W) : Prop where
  safe : m.mode = .running → ∀ s, (dispatch rt).runFrom
    { m.state with world := rt.environment m.state.world } ≠ (.error .fault, s)
  instruction : m.mode = .running → ∀ cf frames op, m.state.frames = cf :: frames →
    Op.ofByte (byteAt (rt.function cf.function).chunk.code cf.ip) = some op →
    op ≠ .endModule ∧
      (frames.length = body.frameIndex → op ≠ .return_ ∧ op ≠ .getLocalReturn ∧ op ≠ .tailCall) ∧
      body.stackDepth + (runEffectOf op (rt.function cf.function).chunk.code cf.ip).pops <
        m.state.stack.length
  exceptions : m.activations.length = body.nativeCalls →
    ∀ e s, Raises rt m e s → body.Recovers rt e s

/-- The next step is the Rethrow that ends the body, and finds the value it was entered with. -/
def Ends (m : Machine V N W) : Prop :=
  m.mode = .running ∧ m.activations.length = body.nativeCalls ∧
    ∃ cf frames stack, m.state.frames = cf :: frames ∧ frames.length = body.frameIndex ∧
      m.state.stack = rt.none :: stack ∧ stack.length = body.stackDepth ∧
      cf.ip < (rt.function cf.function).chunk.code.length ∧
      Op.ofByte (byteAt (rt.function cf.function).chunk.code cf.ip) = some .rethrow

end Cleanup

/-! ## Unwinding -/

/-- How far a cancellation has come. -/
inductive Stage where
  /-- Native code has been told of it. -/
  | told
  | cleaning (body : Cleanup)
  | ended
  deriving DecidableEq, Repr

/-- The stage that the dispatch of a cancellation leads to. -/
def Stage.of (m : Machine V N W) : Stage :=
  match m.mode, m.state.frames with
  | .running, cf :: frames =>
    .cleaning
      { function := cf.function
        catchIp := cf.ip
        frameIndex := frames.length
        stackDepth := m.state.stack.length - 1
        nativeCalls := m.activations.length }
  | .native _, _ => .told
  | _, _ => .ended

/-- What a stage says about the VM. -/
def Stage.Holds (m : Machine V N W) : Stage → Prop
  | .told => ∃ action, m.mode = .native action
  | .cleaning body =>
    isCleanupHandler (rt.function body.function).chunk.code body.catchIp = true ∧ body.Contains m
  | .ended => ∃ message, m.mode = .finished (.error (.cancelled message))

/-- Native code that was told of a cancellation ends with one. It may try to call back first,
    unless a body further out shields such calls. -/
def RelaysCancellation (m : Machine V N W) : Prop :=
  (∃ message, m.mode = .native (.finish (.error (.cancelled message))) ∧ HasRoom m.state) ∨
    ∃ callee args next, m.mode = .native (.call callee args next) ∧ m.state.shields = []

/-- The runs from a cancellation on, in which nothing stops it. -/
inductive Unwinding (first : Machine V N W) : Stage → Machine V N W → Prop where
  /-- A cancellation point of the cancelled task throws. -/
  | thrown {m : Machine V N W} {message : ErrorMessage} {s : State V W}
      (hreach : Machine.Reachable rt first m) (hroom : HasRoom m.state)
      (hraises : Raises rt m (.cancelled message) s) (hcancelled : rt.isCancelled s.world = true) :
      Unwinding first (.of (Machine.step rt m)) (Machine.step rt m)
  /-- The cancellation point is the call of a callback, and native code is told. -/
  | refused {m : Machine V N W} {callee : V} {args : List V} {next : N} {message : ErrorMessage}
      {s : State V W} (hreach : Machine.Reachable rt first m)
      (hmode : m.mode = .native (.call callee args next))
      (hrefused : Machine.step rt m =
        Machine.resumeNative rt next (.error (.cancelled message)) { m with state := s })
      (hcancelled : rt.isCancelled s.world = true) : Unwinding first .told (Machine.step rt m)
  | told {m : Machine V N W} (h : Unwinding first .told m) (hrelays : RelaysCancellation m) :
      Unwinding first (.of (Machine.step rt m)) (Machine.step rt m)
  | inside {body : Cleanup} {m : Machine V N W} (h : Unwinding first (.cleaning body) m)
      (hkeeps : body.Keeps rt m) : Unwinding first (.cleaning body) (Machine.step rt m)
  /-- A cancellation point inside the body throws. -/
  | throws {body : Cleanup} {m : Machine V N W} {message : ErrorMessage} {s : State V W}
      (h : Unwinding first (.cleaning body) m) (hown : m.activations.length = body.nativeCalls)
      (hroom : HasRoom m.state) (hraises : Raises rt m (.cancelled message) s) :
      Unwinding first (.of (Machine.step rt m)) (Machine.step rt m)
  | ends {body : Cleanup} {m : Machine V N W} (h : Unwinding first (.cleaning body) m)
      (hroom : HasRoom m.state) (hends : body.Ends rt m) :
      Unwinding first (.of (Machine.step rt m)) (Machine.step rt m)
  | ended {m : Machine V N W} (h : Unwinding first .ended m) :
      Unwinding first .ended (Machine.step rt m)

end

end Luma.Vm
