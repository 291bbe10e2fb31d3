-- SUMMARY: What each instruction does to control: frames, handlers and stack height.
import Luma.Vm.Machine

/-! # Control

The control of a VM is its state without the values: where each frame is, which
handlers are installed, how high the stack is. One relation says all that executing
an instruction can do to it; the invariants of runs are derived from that relation. -/

namespace Luma.Vm

open Codec Stateful

variable {V N W α β : Type}

/-! ## Control -/

/-- Where a frame is. -/
structure FramePosition where
  function : FunctionId
  ip : Nat
  slotOffset : Nat
  deriving DecidableEq, Repr

/-- A state of the VM without its values. -/
structure Control where
  frames : List FramePosition
  handlers : List ExceptionHandler
  baseDepth : Nat
  height : Nat
  taskScopes : Nat
  deriving DecidableEq, Repr

def CallFrame.position (cf : CallFrame V) : FramePosition where
  function := cf.function
  ip := cf.ip
  slotOffset := cf.slotOffset

def State.control (s : State V W) : Control where
  frames := s.frames.map CallFrame.position
  handlers := s.handlers
  baseDepth := s.baseDepth
  height := s.stack.length
  taskScopes := s.taskScopes

namespace Control

/-- Move the current frame to an instruction. -/
def moveTo (ip : Nat) (c : Control) : Control :=
  { c with frames := match c.frames with
      | [] => []
      | p :: rest => { p with ip } :: rest }

def withHeight (height : Nat) (c : Control) : Control := { c with height }

def withHandlers (handlers : List ExceptionHandler) (c : Control) : Control := { c with handlers }

def withScopes (taskScopes : Nat) (c : Control) : Control := { c with taskScopes }

/-- Enter a function whose slots start at `base`. -/
def enter (id : FunctionId) (base arity : Nat) (c : Control) : Control :=
  { c with frames := ⟨id, 0, base⟩ :: c.frames, height := base + 1 + arity }

/-- Leave the frames from `frameCount` on, and drop their handlers. -/
def discardFrom (frameCount : Nat) (c : Control) : Control :=
  { c with handlers := c.handlers.dropWhile fun h => frameCount ≤ h.frameIndex }

/-- Clean up after a call of native code into the VM. -/
def cleanUp (savedStackSize previousBase : Nat) (c : Control) : Control :=
  { c.discardFrom (min c.baseDepth c.frames.length) with
    frames := c.frames.drop (c.frames.length - c.baseDepth)
    height := savedStackSize
    baseDepth := previousBase }

@[simp] theorem moveTo_moveTo {a b : Nat} {c : Control} :
    (c.moveTo a).moveTo b = c.moveTo b := by
  cases c with
  | mk frames => cases frames <;> rfl

@[simp] theorem withHeight_withHeight {a b : Nat} {c : Control} :
    (c.withHeight a).withHeight b = c.withHeight b := rfl

@[simp] theorem moveTo_withHeight {a b : Nat} {c : Control} :
    (c.withHeight a).moveTo b = (c.moveTo b).withHeight a := rfl

@[simp] theorem withHeight_height {c : Control} : c.withHeight c.height = c := rfl

@[simp] theorem height_withHeight {a : Nat} {c : Control} : (c.withHeight a).height = a := rfl

@[simp] theorem height_moveTo {a : Nat} {c : Control} : (c.moveTo a).height = c.height := rfl

@[simp] theorem baseDepth_moveTo {a : Nat} {c : Control} : (c.moveTo a).baseDepth = c.baseDepth := rfl

@[simp] theorem frames_withHeight {a : Nat} {c : Control} : (c.withHeight a).frames = c.frames := rfl

theorem frames_moveTo {a : Nat} {c : Control} {p : FramePosition} {rest : List FramePosition}
    (hframes : c.frames = p :: rest) : (c.moveTo a).frames = { p with ip := a } :: rest := by
  simp [moveTo, hframes]

theorem moveTo_ip {c : Control} {p : FramePosition} {rest : List FramePosition}
    (hframes : c.frames = p :: rest) : c.moveTo p.ip = c := by
  cases c
  simp_all [moveTo]

end Control

/-- The states with a given control. -/
def Has (c : Control) : State V W → Prop := fun s => s.control = c

/-! ## The effect of an instruction -/

/-- How the execution of an instruction ends. -/
inductive Ending where
  | done | raised | returned | native | fault
  deriving DecidableEq, Repr

def Exit.ending : Exit V N → Ending
  | .raised _ => .raised
  | .returned _ => .returned
  | .native _ _ => .native
  | .fault => .fault

/-- What the VM pops and pushes: the verifier's effect, but for an assertion, which
    never takes more than its two arguments, and `makeSome`, which does nothing. -/
def runEffectOf (op : Op) (code : Bytes) (offset : Nat) : StackEffect :=
  match op with
  | .assert => ⟨min (byteAt code (offset + 1)).toNat 2, 1⟩
  | .makeSome => ⟨0, 0⟩
  | op => BytecodeVerifier.stackEffectOf op code offset

/-- Where control goes inside the frame from the instruction `op` at `offset`, and
    how high the stack is there. -/
def flowEdges (op : Op) (code : Bytes) (offset height : Nat) : List (Nat × Nat) :=
  let effect := runEffectOf op code offset
  let after := height - effect.pops + effect.pushes
  let next := offset + instructionSizeOf op code offset
  let operand := readU32At code (offset + 1)
  match op with
  | .return_ | .getLocalReturn | .rethrow | .endModule => []
  | .jump => [(resolveForwardJumpTarget offset operand, after)]
  | .loop => if operand ≤ next then [(resolveLoopJumpTarget offset operand, after)] else []
  | .jumpIfFalse | .jumpIfTrue | .nullCoalesce =>
    [(next, after), (resolveForwardJumpTarget offset operand, after)]
  | .forIterStep | .forIterStepKV =>
    [(next, after), (next, after - BytecodeVerifier.valuesMissingWhenExhausted op)]
  | _ => [(next, after)]

/-- Does the instruction call the value below its operands? -/
def isCall (op : Op) : Bool :=
  op = .call || op = .callNamed || op = .tailCall || op = .pipe || op = .errorPipe

/-- Do the operands of an instruction lie inside the code and its tables? -/
def OperandsFit (func : CompiledFunction) (op : Op) (offset : Nat) : Prop :=
  offset + instructionSizeOf op func.chunk.code offset ≤ func.chunk.code.length ∧
    (op = .constant → readU16At func.chunk.code (offset + 1) < func.chunk.constants.values.length)

/-- Everything that executing the instruction `op` of the current frame, fetched at
    `offset`, can do to control. -/
inductive Executes (rt : Runtime V N W) (op : Op) (offset : Nat) (p : FramePosition)
    (rest : List FramePosition) (c : Control) : Ending → Control → Prop where
  /-- Control stays in the frame. -/
  | flows {target height : Nat}
      (hedge : (target, height) ∈ flowEdges op (rt.function p.function).chunk.code offset c.height) :
      Executes rt op offset p rest c .done ((c.moveTo target).withHeight height)
  | installs (hop : op = .tryCatch) (hspace : c.handlers.length < maxHandlers) :
      Executes rt op offset p rest c .done
        ((c.moveTo (offset + 5)).withHandlers
          ({ function := p.function
             catchIp := resolveForwardJumpTarget offset
               (readU32At (rt.function p.function).chunk.code (offset + 1))
             frameIndex := rest.length
             stackDepth := c.height
             taskScopeDepth := c.taskScopes } :: c.handlers))
  | removes {h : ExceptionHandler} {handlers : List ExceptionHandler} (hop : op = .tryEnd)
      (hhandlers : c.handlers = h :: handlers) :
      Executes rt op offset p rest c .done ((c.moveTo (offset + 1)).withHandlers handlers)
  | opensScope (hop : op = .taskScopeBegin) :
      Executes rt op offset p rest c .done ((c.moveTo (offset + 1)).withScopes (c.taskScopes + 1))
  | closesScope {e : Ending} {height : Nat} (hop : op = .taskScopeEnd) (hopen : 0 < c.taskScopes)
      (hend : e = .done ∧ height = c.height + 1 ∨ e = .raised ∧ c.height ≤ height) :
      Executes rt op offset p rest c e
        (((c.moveTo (offset + 1)).withScopes (c.taskScopes - 1)).withHeight height)
  /-- A function is entered: its frame starts below its arguments. -/
  | calls {id : FunctionId} {pops : Nat} (hop : isCall op = true)
      (hpops : pops = (runEffectOf op (rt.function p.function).chunk.code offset).pops)
      (hheight : pops ≤ c.height) :
      Executes rt op offset p rest c .done
        ((c.moveTo (offset + instructionSizeOf op (rt.function p.function).chunk.code offset)).enter id
          (c.height - pops) (rt.function id).arity)
  | callsNative {pops : Nat} (hop : isCall op = true)
      (hpops : pops = (runEffectOf op (rt.function p.function).chunk.code offset).pops)
      (hheight : pops ≤ c.height) :
      Executes rt op offset p rest c .native
        ((c.moveTo (offset + instructionSizeOf op (rt.function p.function).chunk.code offset)).withHeight
          (c.height - pops))
  /-- The frame is reused for another function. -/
  | tailCalls {id : FunctionId} (hop : op = .tailCall) :
      Executes rt op offset p rest c .done
        { c.discardFrom rest.length with
          frames := ⟨id, 0, p.slotOffset⟩ :: rest
          height := p.slotOffset + 1 + (rt.function id).arity }
  | returns {e : Ending} {height : Nat} (hop : op = .return_ ∨ op = .getLocalReturn)
      (hend : e = .done ∧ c.baseDepth < rest.length ∧ height = p.slotOffset + 1 ∨
        e = .raised ∧ c.baseDepth < rest.length ∧ height = p.slotOffset ∧ maxStack ≤ p.slotOffset ∨
        e = .returned ∧ rest.length ≤ c.baseDepth ∧ height = p.slotOffset) :
      Executes rt op offset p rest c e { c.discardFrom rest.length with frames := rest, height }
  | ends (hop : op = .endModule) : Executes rt op offset p rest c .returned (c.moveTo (offset + 1))
  /-- An error is raised: at most the operands of the instruction are popped. -/
  | raises {ip height : Nat}
      (hheight :
        c.height - (runEffectOf op (rt.function p.function).chunk.code offset).pops ≤ height) :
      Executes rt op offset p rest c .raised ((c.moveTo ip).withHeight height)
  | overruns {c' : Control} (hverified : (rt.function p.function).verified = true)
      (hfit : ¬ OperandsFit (rt.function p.function) op offset) :
      Executes rt op offset p rest c .fault c'

end Luma.Vm
