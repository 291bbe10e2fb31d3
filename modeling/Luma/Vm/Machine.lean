-- SUMMARY: Runs of the VM: the dispatch loop, exception dispatch and native calls.
import Luma.Vm.Instructions

/-! # Runs

The dispatch loop executes instructions until the frame it was started for returns.
An instruction that calls a native function suspends it; native code may call back
into the VM, which starts another activation of the loop. An exception resumes at
the innermost handler of the current activation, or ends the activation. -/

namespace Luma.Vm

open Codec

variable {V N W : Type}

/-! ## Exception dispatch -/

/-- A state of the walk over the code of a handler: `depth` counts the values above
    the base of the handler, `previous` is the instruction that fell through. -/
structure HandlerWalkState where
  offset : Nat
  depth : Int
  previous : Op
  deriving DecidableEq, Repr

/-- Visits of the walk per byte of code. -/
def handlerWalkVisitsPerByte : Nat := 4

/-- What the walk does at an instruction: answer, or go on with more states. -/
def walkHandlerInstruction (code : Bytes) (w : HandlerWalkState) (op : Op) :
    Option Bool × List HandlerWalkState :=
  if op = .rethrow then
    -- Re-raising the handler's own error value marks a cleanup handler.
    if w.depth = 1 then (some true, []) else (none, [])
  else
    let effect := BytecodeVerifier.stackEffectOf op code w.offset
    let after := w.depth - effect.pops + effect.pushes
    let next := w.offset + instructionSizeOf op code w.offset
    let operand := readU32At code (w.offset + 1)
    if w.depth - effect.pops < 1 then (none, [])
    else
      match op with
      | .return_ | .getLocalReturn | .tailCall | .endModule => (none, [])
      | .jump => (none, [⟨resolveForwardJumpTarget w.offset operand, after, .jump⟩])
      | .loop =>
        if operand ≤ next then (none, [⟨resolveLoopJumpTarget w.offset operand, after, .jump⟩])
        else (none, [])
      | .jumpIfFalse | .jumpIfTrue | .nullCoalesce =>
        let missing :=
          if op = .jumpIfFalse then BytecodeVerifier.valuesMissingWhenExhausted w.previous else 0
        (none, [⟨next, after, op⟩,
          ⟨resolveForwardJumpTarget w.offset operand, after - missing, .jump⟩])
      | _ => (none, [⟨next, after, op⟩])

/-- Is there nothing to see for a state of the walk? -/
def handlerWalkSkips (code : Bytes) (visited : Nat → Int) (w : HandlerWalkState) : Bool :=
  decide (w.depth < 1) || decide (code.length ≤ w.offset) || decide (visited w.offset = w.depth) ||
    (match Op.ofByte (byteAt code w.offset) with
      | none => true
      | some op => decide (code.length < w.offset + instructionSizeOf op code w.offset))

def walkHandler (code : Bytes) :
    (budget : Nat) → (visited : Nat → Int) → List HandlerWalkState → Bool
  | budget, visited, pending =>
    match pending.dropWhile (handlerWalkSkips code visited) with
    | [] => false
    | w :: rest =>
      match budget with
      | 0 => false
      | budget + 1 =>
        match Op.ofByte (byteAt code w.offset) with
        | none => false
        | some op =>
          match walkHandlerInstruction code w op with
          | (some answer, _) => answer
          | (none, pushed) =>
            walkHandler code budget (Function.update visited w.offset w.depth) (pushed.reverse ++ rest)

/-- Does the code at `catchOffset` re-raise the error value it starts with? -/
def isCleanupHandler (code : Bytes) (catchOffset : Nat) : Bool :=
  walkHandler code (code.length * handlerWalkVisitsPerByte + 1) (fun _ => -1)
    [⟨catchOffset, 1, .jump⟩]

/-- The frame at an index from the bottom. -/
def frameAt (frames : List (CallFrame V)) (index : Nat) : Option (CallFrame V) :=
  frames.reverse[index]?

section

variable (rt : Runtime V N W)

/-- Can a handler be resumed: does it belong to a live frame, lie no deeper than the
    stacks, and point into the code of its frame? -/
def isValidHandler (s : State V W) (h : ExceptionHandler) : Bool :=
  match frameAt s.frames h.frameIndex with
  | none => false
  | some frame =>
    decide (h.stackDepth ≤ s.stack.length) && decide (h.taskScopeDepth ≤ s.taskScopes) &&
      decide (h.function = frame.function) &&
      decide (h.catchIp ≤ (rt.function frame.function).chunk.code.length)

def hasHandlerFor (s : State V W) : Bool :=
  match s.handlers with
  | [] => false
  | h :: _ => decide (s.baseDepth ≤ h.frameIndex)

def isCleanup (h : ExceptionHandler) : Bool :=
  isCleanupHandler (rt.function h.function).chunk.code h.catchIp

/-- Unwind to a handler: task scopes, frames, shields and the stack. -/
def unwindTo (h : ExceptionHandler) (s : State V W) : State V W :=
  let s := { s with taskScopes := min s.taskScopes h.taskScopeDepth }
  let s := { s with frames := s.frames.drop (s.frames.length - (h.frameIndex + 1)) }
  let s := endCancelShieldsFrom h.frameIndex h.stackDepth s
  { s with stack := truncateTo rt.none h.stackDepth s.stack }

/-- Unwind to a handler and resume at its code with the error value on the stack. -/
def resumeAtHandler (h : ExceptionHandler) (errorValue : V) : Exec V N W Unit := do
  modify (unwindTo rt h)
  push errorValue
  setIp h.catchIp

/-- Let a cleanup handler of a cancelled task run to completion. -/
def shieldCleanup (h : ExceptionHandler) : Exec V N W Unit :=
  modify fun s =>
    if rt.isCancelled s.world && isCleanup rt h then
      { s with shields := ⟨h.frameIndex, h.stackDepth⟩ :: s.shields }
    else s

/-- Dispatch an error. False when no handler catches it. -/
def handleError (message : ErrorMessage) (payload : Option V) : Exec V N W Bool := do
  let s ← get
  if !hasHandlerFor s then return false
  else
    match s.handlers with
    | [] => return false
    | h :: handlers =>
      set { s with handlers }
      if !isValidHandler rt s h then return false
      else
        let errorValue := match payload with
          | some value => rt.toStringValue value
          | none => rt.ofString message
        resumeAtHandler rt h errorValue
        shieldCleanup rt h
        return true

/-- The handler a cancellation stops at: the innermost one that may see it. Those
    above it are dropped. -/
def cancellationTarget (selfCancelled : Bool) (s : State V W) :
    List ExceptionHandler → Option ExceptionHandler × List ExceptionHandler
  | [] => (none, [])
  | h :: handlers =>
    if h.frameIndex < s.baseDepth then (none, h :: handlers)
    else if !isValidHandler rt s h then (none, handlers)
    else if isCleanup rt h || !selfCancelled then (some h, handlers)
    else cancellationTarget selfCancelled s handlers

/-- Dispatch a cancellation. False when no handler catches it. -/
def handleCancellation (cancellationMarker : V) (message : ErrorMessage) : Exec V N W Bool := do
  let s ← get
  let selfCancelled := rt.isCancelled s.world
  let (target, handlers) := cancellationTarget rt selfCancelled s s.handlers
  set { s with handlers }
  match target with
  | none => return false
  | some h =>
    resumeAtHandler rt h (if isCleanup rt h then cancellationMarker else rt.ofString message)
    shieldCleanup rt h
    return true

/-- What the dispatch loop does about an exception. -/
def handleException : Raised V → Exec V N W Bool
  | .error message payload => handleError rt message payload
  | .cancelled message => handleCancellation rt rt.none message
  | .foreign => return false

end

/-! ## Activations -/

/-- A native call that waits for the activation it started: what to restore, and
    the native code to continue. -/
structure Activation (N : Type) where
  previousBase : Nat
  savedStackSize : Nat
  /-- The task scopes open when the suspended activation of the loop started. -/
  scopeBase : Nat
  next : N

/-- What the VM is about to do. -/
inductive Mode (V N : Type) where
  | running
  | native (action : NativeAction V N)
  | finished (result : Except (Raised V) V)
  | faulted

/-- The VM with its suspended native calls, innermost first. -/
structure Machine (V N W : Type) where
  state : State V W
  activations : List (Activation N)
  scopeBase : Nat
  mode : Mode V N

namespace Machine

section

variable (rt : Runtime V N W)

/-- Give a result of the VM to the native code that waits for it. -/
def resumeNative (next : N) (result : Except (Raised V) V) (m : Machine V N W) : Machine V N W :=
  let (action, world) := rt.resumeNative next result m.state.world
  { m with state := { m.state with world }, mode := .native action }

/-- The activation ends with a value. -/
def finishRun (result : V) (m : Machine V N W) : Machine V N W :=
  match m.activations with
  | [] => { m with mode := .finished (.ok result) }
  | a :: activations =>
    resumeNative rt a.next (.ok result)
      { m with state := { m.state with baseDepth := a.previousBase }, activations, scopeBase := a.scopeBase }

/-- What a native call cleans up when the call back into the VM fails. -/
def cleanUpCall (savedStackSize previousBase : Nat) (s : State V W) : State V W :=
  let s := { s with frames := s.frames.drop (s.frames.length - s.baseDepth) }
  let s := discardFramesFrom s.frames.length s
  { s with stack := truncateTo rt.none savedStackSize s.stack, baseDepth := previousBase }

/-- An exception leaves the activation. -/
def leaveRun (e : Raised V) (m : Machine V N W) : Machine V N W :=
  match m.activations with
  | [] => { m with mode := .finished (.error e) }
  | a :: activations =>
    resumeNative rt a.next (.error e)
      { m with
        state := cleanUpCall rt a.savedStackSize a.previousBase m.state
        activations
        scopeBase := a.scopeBase }

/-- An exception is raised in the dispatch loop. -/
def catchException (e : Raised V) (m : Machine V N W) : Machine V N W :=
  match (handleException rt e).runFrom m.state with
  | (.ok true, state) => { m with state, mode := .running }
  | (.ok false, state) =>
    leaveRun rt e { m with state := { state with taskScopes := min state.taskScopes m.scopeBase } }
  -- An exception of the exception dispatch itself leaves the loop as it is.
  | (.error (.raised e'), state) => leaveRun rt e' { m with state }
  | (.error _, state) => { m with state, mode := .faulted }

/-- One instruction of the dispatch loop. -/
def runInstruction (m : Machine V N W) : Machine V N W :=
  let state := { m.state with world := rt.environment m.state.world }
  match (dispatch rt).runFrom state with
  | (.ok _, state) => { m with state }
  | (.error (.raised e), state) => catchException rt e { m with state }
  | (.error (.returned result), state) => finishRun rt result { m with state }
  | (.error (.native start args), state) =>
    let (action, world) := rt.startNative start args state.world
    { m with state := { state with world }, mode := .native action }
  | (.error .fault, state) => { m with state, mode := .faulted }

/-- The arguments a callback takes; the others are dropped. -/
def callbackArguments (callee : V) (args : List V) : List V :=
  match rt.callee callee with
  | .function id => args.take (rt.function id).arity
  | _ => args

/-- Native code calls a function of the program. The callee and its arguments are
    pushed before anything is there to clean them up. -/
def callBack (callee : V) (args : List V) (next : N) (m : Machine V N W) : Machine V N W :=
  let savedStackSize := m.state.stack.length
  let args := callbackArguments rt callee args
  let pushed : Exec V N W Unit := do
    push callee
    pushAll args
  match pushed.runFrom m.state with
  | (.error (.raised e), state) => resumeNative rt next (.error e) { m with state }
  | (.error _, state) => { m with state, mode := .faulted }
  | (.ok _, state) =>
    let previousBase := state.baseDepth
    let state := { state with baseDepth := state.frames.length }
    match (callValue rt callee args.length).runFrom state with
    | (.ok _, state) =>
      { state
        activations := ⟨previousBase, savedStackSize, m.scopeBase, next⟩ :: m.activations
        scopeBase := state.taskScopes
        mode := .running }
    | (.error (.raised e), state) =>
      resumeNative rt next (.error e)
        { m with state := cleanUpCall rt savedStackSize previousBase state }
    | (.error _, state) => { m with state, mode := .faulted }

/-- Native code ends: its result is pushed, or its exception is raised by the call. -/
def finishNative (result : Except (Raised V) V) (m : Machine V N W) : Machine V N W :=
  match result with
  | .error e => catchException rt e m
  | .ok value =>
    match (push value : Exec V N W Unit).runFrom m.state with
    | (.ok _, state) => { m with state, mode := .running }
    | (.error (.raised e), state) => catchException rt e { m with state }
    | (.error _, state) => { m with state, mode := .faulted }

/-- One step of the VM. -/
def step (m : Machine V N W) : Machine V N W :=
  match m.mode with
  | .running => runInstruction rt m
  | .native (.finish result) => finishNative rt result m
  | .native (.call callee args next) =>
    match rt.callee callee with
    -- Native code calls native functions itself, and never asks for this.
    | .native _ => m
    | _ => callBack rt callee args next m
  | .finished _ | .faulted => m

/-- A new VM about to execute a function called with arguments: a top-level function,
    which takes none, or the function of a spawned task. -/
def start (id : FunctionId) (closure : V) (args : List V) (world : W) : Machine V N W where
  state :=
    { stack := args.reverse ++ [closure]
      frames := [{ function := id, closure := some closure, ip := 0, slotOffset := 0 }]
      handlers := []
      shields := []
      baseDepth := 0
      taskScopes := 0
      loopIterations := 0
      totalLoopIterations := 0
      world }
  activations := []
  scopeBase := 0
  mode := .running

/-- The states of a run. -/
inductive Reachable (m : Machine V N W) : Machine V N W → Prop where
  | refl : Reachable m m
  | step {m' : Machine V N W} (hreach : Reachable m m') : Reachable m (step rt m')

end

end Machine

end Luma.Vm
