-- SUMMARY: The state of the VM, and what it takes from values and native code.
import Luma.Bytecode.Chunk
import Luma.Library.Triple
import Luma.Value.Equality

/-! # The State of the VM

The VM owns a stack of values, a stack of call frames, a stack of exception
handlers and a stack of task scopes. What instructions compute on values, and what
native functions do, is left to a `Runtime`: it never touches these stacks. -/

namespace Luma.Vm

open Codec

/-- What a pointer to a compiled function identifies. -/
abbrev FunctionId := Nat

variable (V N W : Type)

/-- One active function invocation. -/
structure CallFrame where
  function : FunctionId
  closure : Option V
  ip : Nat
  slotOffset : Nat

/-- A handler of an active try block. `function` says whose code `catchIp` points into. -/
structure ExceptionHandler where
  function : FunctionId
  catchIp : Nat
  frameIndex : Nat
  stackDepth : Nat
  taskScopeDepth : Nat
  deriving DecidableEq, Repr

/-- A cleanup handler that runs to completion although its task is cancelled. -/
structure CancelShield where
  frameIndex : Nat
  stackDepth : Nat
  deriving DecidableEq, Repr

/-- Exceptions of the implementation. -/
inductive Raised where
  /-- A runtime error, with the value it carries, if any. -/
  | error (message : ErrorMessage) (payload : Option V)
  /-- A cancellation observed by the task or at an await. -/
  | cancelled (message : ErrorMessage)
  /-- An exception no handler of a program catches, like the exit signal. -/
  | foreign

/-- How the execution of an instruction ends, other than by continuing. -/
inductive Exit where
  | raised (e : Raised V)
  /-- The activation of the dispatch loop ends with a value. -/
  | returned (result : V)
  /-- A native function is to be called. -/
  | native (start : N) (args : List V)
  /-- Memory outside the code or a table would be read. -/
  | fault

/-- What native code does next: end, or call back into the VM. -/
inductive NativeAction where
  | finish (result : Except (Raised V) V)
  | call (callee : V) (args : List V) (next : N)

/-- What a called value is. -/
inductive Callee where
  | function (id : FunctionId)
  | native (start : N)
  | notCallable

/-- One step of an iteration. The key is for iterations over pairs. -/
inductive IterStep where
  | next (value key : V)
  | exhausted

/-- The limits the VM enforces. -/
structure Limits where
  maxCallDepth : Nat
  maxWhileIterations : Nat
  maxTotalLoopIterations : Nat

/-- Depth of the value stack. -/
def maxStack : Nat := 65536

/-- Depth of the exception handler stack. -/
def maxHandlers : Nat := 256

/-- The functions of a program, and what is done with values: `compute` is the value
    an instruction computes from its operands and the values it pops. `W` is
    everything else that can change: globals, shared storage, files, other tasks. -/
structure Runtime where
  function : FunctionId → CompiledFunction
  /-- The functions that MakeClosure indexes, in the code of a function. -/
  functionTable : FunctionId → List FunctionId
  limits : Limits
  none : V
  ofConstant : Value → V
  ofBool : Bool → V
  ofString : ErrorMessage → V
  isTruthy : V → Bool
  /-- The value itself if it is a string, else its text as a string. -/
  toStringValue : V → V
  typeName : V → String
  callee : V → Callee N
  /-- The value a null coalescing jump leaves on the stack, if it jumps. -/
  coalesced : V → Option V
  /-- What an error pipe passes on; `none` for a failure, which stays as it is. -/
  piped : V → Option V
  /-- The arguments of a named call, by parameter position. -/
  bindArguments : CompiledFunction → List V → List (V × V) → Except (Raised V) (Nat → V)
  compute : Op → List Nat → CallFrame V → List V → W → Except (Raised V) V × W
  iterate : Op → V → W → Except (Raised V) (IterStep V) × W
  makeExclusive : V → W → V × W
  /-- The error that Rethrow raises for a value. -/
  rethrown : V → Raised V
  isCancelled : W → Bool
  isCancellationMarker : V → Bool
  /-- What happens elsewhere between two instructions. -/
  environment : W → W
  startNative : N → List V → W → NativeAction V N × W
  resumeNative : N → Except (Raised V) V → W → NativeAction V N × W

/-- The state of the VM. Stacks have their top first. -/
structure State where
  stack : List V
  frames : List (CallFrame V)
  handlers : List ExceptionHandler
  shields : List CancelShield
  baseDepth : Nat
  taskScopes : Nat
  loopIterations : Nat
  totalLoopIterations : Nat
  world : W

/-- What instructions run in. -/
abbrev Exec := Stateful (State V W) (Exit V N)

end Luma.Vm
