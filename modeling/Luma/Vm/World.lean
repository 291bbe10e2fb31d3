-- SUMMARY: What instructions do to everything that is not the VM's own.
import Luma.Vm.Machine

/-! # The World of a VM

Instructions reach globals, shared storage and other tasks only through the `Runtime`.
A property of the world that the runtime keeps is kept by every instruction. -/

namespace Luma.Vm

open Codec Stateful

variable {V N W α β : Type} {rt : Runtime V N W} {P : W → Prop}

/-- Nothing the runtime does ends the property. -/
structure Lasting (rt : Runtime V N W) (P : W → Prop) : Prop where
  environment : ∀ w, P w → P (rt.environment w)
  compute : ∀ op operands cf values w, P w → P (rt.compute op operands cf values w).2
  iterate : ∀ op iterator w, P w → P (rt.iterate op iterator w).2
  makeExclusive : ∀ value w, P w → P (rt.makeExclusive value w).2
  startNative : ∀ start args w, P w → P (rt.startNative start args w).2
  resumeNative : ∀ next result w, P w → P (rt.resumeNative next result w).2

/-- The computation keeps a property of the world, however it ends. -/
def Preserves (P : W → Prop) (m : Exec V N W α) : Prop :=
  ∀ s, P s.world → P (m.runFrom s).2.world

namespace Preserves

variable {m : Exec V N W α} {f : α → Exec V N W β}

theorem pure {a : α} : Preserves P (Pure.pure a : Exec V N W α) := fun _ hs => hs

theorem throw {e : Exit V N} : Preserves P (MonadExcept.throw e : Exec V N W α) := fun _ hs => hs

theorem raise {e : Raised V} : Preserves P (raise e : Exec V N W α) := throw

theorem runtimeError {message : ErrorMessage} : Preserves P (runtimeError message : Exec V N W α) :=
  raise

theorem bind (hm : Preserves P m) (hf : ∀ a, Preserves P (f a)) : Preserves P (m >>= f) := by
  intro s hs
  have hworld := hm s hs
  rw [runFrom_bind]
  cases hrun : m.runFrom s with
  | mk result s' =>
    rw [hrun] at hworld
    cases result with
    | ok a => exact hf a s' hworld
    | error e => exact hworld

theorem ite {c : Prop} [Decidable c] {m' : Exec V N W α} (hm : Preserves P m) (hm' : Preserves P m') :
    Preserves P (if c then m else m') := by
  split
  · exact hm
  · exact hm'

theorem get : Preserves P (MonadState.get : Exec V N W (State V W)) := fun _ hs => hs

theorem modify {g : State V W → State V W} (hg : ∀ s, (g s).world = s.world) :
    Preserves P (modify g : Exec V N W PUnit) :=
  fun s hs => show P (g s).world by rw [hg]; exact hs

theorem get_bind {k : State V W → Exec V N W β} (hk : ∀ s, P s.world → P ((k s).runFrom s).2.world) :
    Preserves P (MonadState.get >>= k) :=
  fun s hs => hk s hs

end Preserves

/-! ## Frames, values and operands -/

theorem currentFrame_preserves : Preserves P (currentFrame : Exec V N W (CallFrame V)) := by
  refine Preserves.get.bind fun s => ?_
  split
  · exact .pure
  · exact .throw

theorem setIp_preserves {ip : Nat} : Preserves P (setIp ip : Exec V N W Unit) := by
  refine .modify fun s => ?_
  split <;> rfl

theorem push_preserves {v : V} : Preserves P (push v : Exec V N W Unit) := by
  refine Preserves.get_bind fun s hs => ?_
  split <;> exact hs

theorem pop_preserves : Preserves P (pop : Exec V N W V) := by
  refine Preserves.get_bind fun s hs => ?_
  split <;> exact hs

theorem popSequence_preserves : (n : Nat) → Preserves P (popSequence n : Exec V N W (List V))
  | 0 => .pure
  | n + 1 => pop_preserves.bind fun _ => (popSequence_preserves n).bind fun _ => .pure

theorem pushAll_preserves : (vs : List V) → Preserves P (pushAll vs : Exec V N W Unit)
  | [] => .pure
  | _ :: vs => push_preserves.bind fun _ => pushAll_preserves vs

theorem peek_preserves {distance : Nat} : Preserves P (peek distance : Exec V N W V) := by
  refine Preserves.get.bind fun s => ?_
  dsimp only
  split
  · exact .pure
  · exact .runtimeError

theorem setTop_preserves {v : V} : Preserves P (setTop v : Exec V N W Unit) := .modify fun _ => rfl

theorem validateStackSpace_preserves {needed : Nat} :
    Preserves P (validateStackSpace needed : Exec V N W Unit) :=
  Preserves.get.bind fun _ => .ite .runtimeError .pure

theorem validateStackDepth_preserves {required : Nat} {context : String} :
    Preserves P (validateStackDepth required context : Exec V N W Unit) :=
  Preserves.get.bind fun _ => .ite .runtimeError .pure

theorem currentFunction_preserves : Preserves P (currentFunction rt) :=
  currentFrame_preserves.bind fun _ => .pure

theorem ensureBytecodeAvailable_preserves {count : Nat} :
    Preserves P (ensureBytecodeAvailable rt count) :=
  currentFrame_preserves.bind fun _ => .ite .runtimeError .pure

theorem nextByte_preserves : Preserves P (nextByte rt) := by
  refine currentFrame_preserves.bind fun cf => ?_
  split
  · exact setIp_preserves.bind fun _ => .pure
  · exact .throw

theorem ensureOperands_preserves {count : Nat} : Preserves P (ensureOperands rt count) :=
  currentFunction_preserves.bind fun _ => .ite .pure ensureBytecodeAvailable_preserves

theorem readByte_preserves : Preserves P (readByte rt) :=
  ensureOperands_preserves.bind fun _ => nextByte_preserves

theorem readU16_preserves : Preserves P (readU16 rt) :=
  ensureOperands_preserves.bind fun _ => nextByte_preserves.bind fun _ =>
    nextByte_preserves.bind fun _ => .pure

theorem readU32_preserves : Preserves P (readU32 rt) :=
  ensureOperands_preserves.bind fun _ => nextByte_preserves.bind fun _ =>
    nextByte_preserves.bind fun _ => nextByte_preserves.bind fun _ =>
      nextByte_preserves.bind fun _ => .pure

theorem readNameIndices_preserves : (n : Nat) → Preserves P (readNameIndices rt n)
  | 0 => .pure
  | n + 1 => readU16_preserves.bind fun _ => (readNameIndices_preserves n).bind fun _ => .pure

theorem checkedName_preserves {index : Nat} : Preserves P (checkedName rt index) :=
  currentFunction_preserves.bind fun _ => .ite .runtimeError .pure

theorem readName_preserves : Preserves P (readName rt) :=
  readU16_preserves.bind fun _ => checkedName_preserves.bind fun _ => .pure

theorem validateJumpTarget_preserves {message : ErrorMessage} :
    Preserves P (validateJumpTarget rt message) :=
  currentFrame_preserves.bind fun _ => .ite .runtimeError .pure

theorem jumpBy_preserves {offset : Nat} {message : ErrorMessage} :
    Preserves P (jumpBy rt offset message) :=
  currentFrame_preserves.bind fun _ => setIp_preserves.bind fun _ => validateJumpTarget_preserves

theorem getLocalSlot_preserves {slot : Nat} : Preserves P (getLocalSlot slot : Exec V N W V) := by
  refine currentFrame_preserves.bind fun _ => Preserves.get.bind fun s => ?_
  split
  · exact .pure
  · exact .runtimeError

theorem setLocalSlot_preserves {slot : Nat} {v : V} :
    Preserves P (setLocalSlot slot v : Exec V N W Unit) :=
  getLocalSlot_preserves.bind fun _ => currentFrame_preserves.bind fun _ => .modify fun _ => rfl

theorem checkCancellation_preserves : Preserves P (checkCancellation rt) :=
  Preserves.get.bind fun _ => .ite .raise .pure

theorem countIteration_preserves : Preserves P (countIteration rt) := by
  refine .bind (.modify fun _ => rfl) fun _ => .bind .get fun _ => ?_
  refine .ite (.bind (.modify fun _ => rfl) fun _ => .runtimeError) ?_
  exact .bind (.modify fun _ => rfl) fun _ => .bind .get fun _ => .ite .runtimeError .pure

/-! ## The runtime -/

theorem compute_preserves (hrt : Lasting rt P) {op : Op} {operands : List Nat} {values : List V} :
    Preserves P (compute rt op operands values) := by
  refine currentFrame_preserves.bind fun cf => Preserves.get_bind fun s hs => ?_
  have hworld := hrt.compute op operands cf values s.world hs
  dsimp only
  cases (rt.compute op operands cf values s.world).1 <;> exact hworld

theorem iterate_preserves (hrt : Lasting rt P) {op : Op} {iterator : V} :
    Preserves P (iterate rt op iterator) := by
  refine Preserves.get_bind fun s hs => ?_
  have hworld := hrt.iterate op iterator s.world hs
  dsimp only
  cases (rt.iterate op iterator s.world).1 <;> exact hworld

theorem replaceTop_preserves (hrt : Lasting rt P) {op : Op} {operands : List Nat} {count : Nat} :
    Preserves P (replaceTop rt op operands count) :=
  (popSequence_preserves count).bind fun _ => (compute_preserves hrt).bind fun _ => push_preserves

theorem inPlace_preserves (hrt : Lasting rt P) {op : Op} {operands : List Nat} {context : String} :
    Preserves P (inPlace rt op operands context) :=
  validateStackDepth_preserves.bind fun _ => peek_preserves.bind fun _ =>
    (compute_preserves hrt).bind fun _ => setTop_preserves

theorem binary_preserves (hrt : Lasting rt P) {op : Op} : Preserves P (binary rt op) :=
  pop_preserves.bind fun _ => Preserves.get.bind fun _ => .ite .runtimeError
    (peek_preserves.bind fun _ => (compute_preserves hrt).bind fun _ => setTop_preserves)

theorem produce_preserves (hrt : Lasting rt P) {op : Op} {operands : List Nat} :
    Preserves P (produce rt op operands) :=
  (compute_preserves hrt).bind fun _ => push_preserves

theorem store_preserves (hrt : Lasting rt P) {op : Op} {operands : List Nat} :
    Preserves P (store rt op operands) :=
  peek_preserves.bind fun _ => (compute_preserves hrt).bind fun _ => .pure

theorem makeLocalExclusive_preserves (hrt : Lasting rt P) {slot : Nat} :
    Preserves P (makeLocalExclusive rt slot) := by
  refine getLocalSlot_preserves.bind fun value => Preserves.get_bind fun s hs => ?_
  exact setLocalSlot_preserves _ (hrt.makeExclusive value s.world hs)

theorem dispatchIterStep_preserves (hrt : Lasting rt P) {op : Op} :
    Preserves P (dispatchIterStep rt op) := by
  refine pop_preserves.bind fun _ => (iterate_preserves hrt).bind fun step => ?_
  cases step with
  | next value key => exact (pushAll_preserves _).bind fun _ => push_preserves
  | exhausted => exact push_preserves

/-! ## Handlers -/

theorem handleConstant_preserves : Preserves P (handleConstant rt) := by
  refine readU16_preserves.bind fun _ => currentFunction_preserves.bind fun _ => .ite .runtimeError ?_
  split
  · exact push_preserves
  · exact .throw

theorem handleConstantLong_preserves : Preserves P (handleConstantLong rt) := by
  refine readU32_preserves.bind fun _ => currentFunction_preserves.bind fun _ => ?_
  dsimp only
  split
  · exact push_preserves
  · exact .runtimeError

theorem handleMakeRecord_preserves (hrt : Lasting rt P) : Preserves P (handleMakeRecord rt) :=
  validateStackSpace_preserves.bind fun _ => readU16_preserves.bind fun _ =>
    readByte_preserves.bind fun _ => checkedName_preserves.bind fun _ =>
      currentFrame_preserves.bind fun _ => .ite .runtimeError
        (validateStackDepth_preserves.bind fun _ => (readNameIndices_preserves _).bind fun _ =>
          replaceTop_preserves hrt)

theorem handleRecordWith_preserves (hrt : Lasting rt P) : Preserves P (handleRecordWith rt) :=
  readByte_preserves.bind fun _ => currentFrame_preserves.bind fun _ => .ite .runtimeError
    ((readNameIndices_preserves _).bind fun _ => replaceTop_preserves hrt)

theorem handleMakeClosure_preserves (hrt : Lasting rt P) : Preserves P (handleMakeClosure rt) :=
  readU16_preserves.bind fun _ => readByte_preserves.bind fun _ =>
    currentFrame_preserves.bind fun _ => .ite .runtimeError (produce_preserves hrt)

theorem handleStepLocal_preserves (hrt : Lasting rt P) {op : Op} : Preserves P (handleStepLocal rt op) :=
  readU16_preserves.bind fun _ => getLocalSlot_preserves.bind fun _ =>
    (compute_preserves hrt).bind fun _ => setLocalSlot_preserves

theorem jumpIf_preserves {jumpOnTruthy : Bool} : Preserves P (jumpIf rt jumpOnTruthy) :=
  readU32_preserves.bind fun _ => peek_preserves.bind fun _ => .ite jumpBy_preserves .pure

theorem handleNullCoalesce_preserves : Preserves P (handleNullCoalesce rt) := by
  refine readU32_preserves.bind fun _ => peek_preserves.bind fun _ => ?_
  split
  · exact .pure
  · exact setTop_preserves.bind fun _ => jumpBy_preserves

theorem handleLoop_preserves : Preserves P (handleLoop rt) :=
  readU32_preserves.bind fun _ => currentFrame_preserves.bind fun _ => .ite .runtimeError
    (setIp_preserves.bind fun _ => checkCancellation_preserves.bind fun _ => countIteration_preserves)

theorem prepareArguments_preserves {func : CompiledFunction} {argCount : Nat} :
    Preserves P (prepareArguments rt func argCount) :=
  .ite .runtimeError ((pushAll_preserves _).bind fun _ => .ite .runtimeError .pure)

theorem callFunction_preserves {id : FunctionId} {argCount : Nat} :
    Preserves P (callFunction rt id argCount) :=
  (Preserves.get.bind fun _ => .ite .runtimeError .pure).bind fun _ => checkCancellation_preserves.bind fun _ =>
    prepareArguments_preserves.bind fun _ => .modify fun _ => rfl

theorem callValue_preserves {callee : V} {argCount : Nat} : Preserves P (callValue rt callee argCount) := by
  unfold callValue
  split
  · exact callFunction_preserves
  · exact (popSequence_preserves _).bind fun _ => pop_preserves.bind fun _ => .throw
  · exact .runtimeError

theorem handleCall_preserves : Preserves P (handleCall rt) :=
  readByte_preserves.bind fun _ => peek_preserves.bind fun _ => callValue_preserves

theorem popPairs_preserves : (n : Nat) → Preserves P (popPairs n : Exec V N W (List (V × V)))
  | 0 => .pure
  | n + 1 => pop_preserves.bind fun _ => pop_preserves.bind fun _ =>
      (popPairs_preserves n).bind fun _ => .pure

theorem handleCallNamed_preserves : Preserves P (handleCallNamed rt) := by
  refine readByte_preserves.bind fun _ => readByte_preserves.bind fun _ => peek_preserves.bind fun _ =>
    (popPairs_preserves _).bind fun _ => (popSequence_preserves _).bind fun _ => ?_
  split
  · dsimp only
    split
    · exact .raise
    · exact (pushAll_preserves _).bind fun _ => callValue_preserves
  · exact (pushAll_preserves _).bind fun _ => (pushAll_preserves _).bind fun _ => callValue_preserves

theorem reuseFrame_world {id : FunctionId} {callee : V} {base : Nat} {s : State V W} :
    (reuseFrame rt id callee base s).world = s.world := by
  unfold reuseFrame
  dsimp only
  split <;> rfl

theorem handleTailCall_preserves : Preserves P (handleTailCall rt) := by
  refine readByte_preserves.bind fun _ => peek_preserves.bind fun _ => ?_
  split
  · exact checkCancellation_preserves.bind fun _ => prepareArguments_preserves.bind fun _ =>
      currentFrame_preserves.bind fun _ => .modify fun _ => reuseFrame_world
  · exact callValue_preserves

theorem completeReturn_preserves {result : V} {calleeSlotOffset : Nat} :
    Preserves P (completeReturn rt result calleeSlotOffset) :=
  .bind (.modify fun _ => rfl) fun _ => Preserves.get.bind fun _ => .ite .throw push_preserves

theorem handlePipe_preserves : Preserves P (handlePipe rt) :=
  pop_preserves.bind fun _ => pop_preserves.bind fun _ => push_preserves.bind fun _ =>
    push_preserves.bind fun _ => callValue_preserves

theorem handleErrorPipe_preserves : Preserves P (handleErrorPipe rt) := by
  refine pop_preserves.bind fun _ => pop_preserves.bind fun _ => ?_
  split
  · exact push_preserves
  · exact push_preserves.bind fun _ => push_preserves.bind fun _ => callValue_preserves

theorem handleTryCatch_preserves : Preserves P (handleTryCatch rt) := by
  refine readU32_preserves.bind fun _ => currentFrame_preserves.bind fun _ => .ite .runtimeError
    (Preserves.get.bind fun _ => Preserves.get_bind fun s hs => ?_)
  split <;> exact hs

theorem handleTryEnd_preserves : Preserves P (handleTryEnd : Exec V N W Unit) := by
  refine Preserves.get_bind fun s hs => ?_
  split <;> exact hs

theorem handleRethrow_preserves : Preserves P (handleRethrow rt) :=
  pop_preserves.bind fun _ => .bind (.modify fun _ => rfl) fun _ => .raise

theorem handleTaskScopeEnd_preserves (hrt : Lasting rt P) : Preserves P (handleTaskScopeEnd rt) :=
  Preserves.get.bind fun _ => .ite .runtimeError
    (.bind (.modify fun _ => rfl) fun _ => produce_preserves hrt)

/-! ## Dispatch -/

theorem execute_preserves (hrt : Lasting rt P) (op : Op) : Preserves P (execute rt op) := by
  cases op
  all_goals dsimp only [execute]
  case constant => exact handleConstant_preserves
  case constantLong => exact handleConstantLong_preserves
  case pop => exact pop_preserves.bind fun _ => .pure
  case dup => exact validateStackDepth_preserves.bind fun _ => peek_preserves.bind fun _ => push_preserves
  case dup2 =>
    exact validateStackDepth_preserves.bind fun _ => peek_preserves.bind fun _ =>
      peek_preserves.bind fun _ => push_preserves.bind fun _ => push_preserves
  case swap =>
    refine validateStackDepth_preserves.bind fun _ => .modify fun s => ?_
    split <;> rfl
  case getLocal =>
    exact readU16_preserves.bind fun _ => getLocalSlot_preserves.bind fun _ => push_preserves
  case setLocal =>
    exact readU16_preserves.bind fun _ => peek_preserves.bind fun _ => setLocalSlot_preserves
  case getUpvalue => exact readU16_preserves.bind fun _ => produce_preserves hrt
  case setUpvalue => exact readU16_preserves.bind fun _ => store_preserves hrt
  case getGlobal => exact readName_preserves.bind fun _ => produce_preserves hrt
  case setGlobal => exact readName_preserves.bind fun _ => store_preserves hrt
  case none_ | true_ | false_ | zero | one => exact push_preserves
  case add | subtract | multiply | divide | intDivide | modulo | equal | notEqual | less | lessEqual
    | greater | greaterEqual | and | or | concatenate => exact binary_preserves hrt
  case negate | increment | decrement | not | isSome | ensureSuccess | typeOf | intToNumber | clone =>
    exact inPlace_preserves hrt
  case interpolate =>
    exact readByte_preserves.bind fun _ => validateStackDepth_preserves.bind fun _ =>
      replaceTop_preserves hrt
  case makeArray | makeDict | makeTuple =>
    exact readU16_preserves.bind fun _ => validateStackSpace_preserves.bind fun _ =>
      replaceTop_preserves hrt
  case makeRange | makeRangeInc | indexGet | indexGetOpt | makeChoice | contains | indexSet
    | makeSuccess | makeFailure | unwrap | resultInner | isSuccess => exact replaceTop_preserves hrt
  case makeRecord => exact handleMakeRecord_preserves hrt
  case getField | getFieldOpt | downcast | trustedDowncast | isType | setField =>
    exact readName_preserves.bind fun _ => replaceTop_preserves hrt
  case recordWith => exact handleRecordWith_preserves hrt
  case makeChoiceConstructor | print => exact readByte_preserves.bind fun _ => replaceTop_preserves hrt
  case makeSome | matchStart | matchArm | matchEnd => exact .pure
  case jump => exact readU32_preserves.bind fun _ => jumpBy_preserves
  case jumpIfFalse | jumpIfTrue => exact jumpIf_preserves
  case loop => exact handleLoop_preserves
  case nullCoalesce => exact handleNullCoalesce_preserves
  case call => exact handleCall_preserves
  case callNamed => exact handleCallNamed_preserves
  case tailCall => exact handleTailCall_preserves
  case return_ =>
    exact pop_preserves.bind fun _ => currentFrame_preserves.bind fun _ => completeReturn_preserves
  case makeClosure => exact handleMakeClosure_preserves hrt
  case pipe => exact handlePipe_preserves
  case errorPipe => exact handleErrorPipe_preserves
  case tryCatch => exact handleTryCatch_preserves
  case tryEnd => exact handleTryEnd_preserves
  case rethrow => exact handleRethrow_preserves
  case spawn => exact readByte_preserves.bind fun _ => replaceTop_preserves hrt
  case await => exact checkCancellation_preserves.bind fun _ => replaceTop_preserves hrt
  case taskScopeBegin => exact .modify fun _ => rfl
  case taskScopeEnd => exact handleTaskScopeEnd_preserves hrt
  case forIterInit => exact (replaceTop_preserves hrt).bind fun _ => .modify fun _ => rfl
  case forIterStep | forIterStepKV => exact dispatchIterStep_preserves hrt
  case assert => exact readByte_preserves.bind fun _ => replaceTop_preserves hrt
  case incrementLocal | decrementLocal => exact handleStepLocal_preserves hrt
  case setLocalPop =>
    exact readU16_preserves.bind fun _ => pop_preserves.bind fun _ => setLocalSlot_preserves
  case getLocalReturn =>
    exact readU16_preserves.bind fun _ => getLocalSlot_preserves.bind fun _ =>
      currentFrame_preserves.bind fun _ => completeReturn_preserves
  case widenNumber => exact readName_preserves.bind fun _ => inPlace_preserves hrt
  case uniqueLocal => exact readU16_preserves.bind fun _ => makeLocalExclusive_preserves hrt
  case uniqueUpvalue =>
    exact readU16_preserves.bind fun _ => (compute_preserves hrt).bind fun _ => .pure
  case uniqueGlobal =>
    exact readName_preserves.bind fun _ => (compute_preserves hrt).bind fun _ => .pure
  case getFieldUnique =>
    exact readName_preserves.bind fun _ => validateStackDepth_preserves.bind fun _ =>
      replaceTop_preserves hrt
  case indexGetUnique => exact validateStackDepth_preserves.bind fun _ => replaceTop_preserves hrt
  case endModule => exact .throw

theorem dispatch_preserves (hrt : Lasting rt P) : Preserves P (dispatch rt) := by
  refine ensureBytecodeAvailable_preserves.bind fun _ => nextByte_preserves.bind fun byte => ?_
  split
  · exact execute_preserves hrt _
  · exact .runtimeError

/-! ## Exception dispatch -/

theorem resumeAtHandler_preserves {h : ExceptionHandler} {errorValue : V} :
    Preserves P (resumeAtHandler rt h errorValue) :=
  .bind (.modify fun _ => rfl) fun _ => push_preserves.bind fun _ => setIp_preserves

theorem shieldCleanup_preserves {h : ExceptionHandler} : Preserves P (shieldCleanup rt h) := by
  refine .modify fun s => ?_
  split <;> rfl

theorem catch_preserves {h : ExceptionHandler} {errorValue : V} :
    Preserves P (do resumeAtHandler rt h errorValue; shieldCleanup rt h; return true : Exec V N W Bool) :=
  resumeAtHandler_preserves.bind fun _ => shieldCleanup_preserves.bind fun _ => .pure

theorem handleError_preserves {message : ErrorMessage} {payload : Option V} :
    Preserves P (handleError rt message payload) := by
  refine Preserves.get_bind fun s hs => ?_
  split
  · exact hs
  split
  · exact hs
  split
  · exact hs
  · exact catch_preserves { s with handlers := _ } hs

theorem handleCancellation_preserves {marker : V} {message : ErrorMessage} :
    Preserves P (handleCancellation rt marker message) := by
  refine Preserves.get_bind fun s hs => ?_
  dsimp only
  cases (cancellationTarget rt (rt.isCancelled s.world) s s.handlers).1 with
  | none => exact hs
  | some h => exact catch_preserves { s with handlers := _ } hs

theorem handleException_preserves {e : Raised V} : Preserves P (handleException rt e) := by
  cases e with
  | error => exact handleError_preserves
  | cancelled => exact handleCancellation_preserves
  | foreign => exact .pure

/-! ## Steps -/

theorem resumeNative_lasting (hrt : Lasting rt P) {next : N} {result : Except (Raised V) V}
    {m : Machine V N W} (h : P m.state.world) : P (Machine.resumeNative rt next result m).state.world :=
  hrt.resumeNative next result m.state.world h

theorem leaveRun_lasting (hrt : Lasting rt P) {e : Raised V} {m : Machine V N W} (h : P m.state.world) :
    P (Machine.leaveRun rt e m).state.world := by
  unfold Machine.leaveRun
  split
  · exact h
  · exact resumeNative_lasting hrt h

theorem finishRun_lasting (hrt : Lasting rt P) {result : V} {m : Machine V N W} (h : P m.state.world) :
    P (Machine.finishRun rt result m).state.world := by
  unfold Machine.finishRun
  split
  · exact h
  · exact resumeNative_lasting hrt h

theorem catchException_lasting (hrt : Lasting rt P) {e : Raised V} {m : Machine V N W}
    (h : P m.state.world) : P (Machine.catchException rt e m).state.world := by
  have hpreserves : Preserves P (handleException rt e) := handleException_preserves
  have hworld := hpreserves m.state h
  unfold Machine.catchException
  cases hrun : (handleException rt e).runFrom m.state with
  | mk result state =>
    rw [hrun] at hworld
    cases result with
    | ok caught =>
      cases caught with
      | true => exact hworld
      | false => exact leaveRun_lasting hrt hworld
    | error e' =>
      cases e' with
      | raised e' => exact leaveRun_lasting hrt hworld
      | _ => exact hworld

theorem runInstruction_lasting (hrt : Lasting rt P) {m : Machine V N W} (h : P m.state.world) :
    P (Machine.runInstruction rt m).state.world := by
  have hworld := dispatch_preserves hrt { m.state with world := rt.environment m.state.world }
    (hrt.environment m.state.world h)
  unfold Machine.runInstruction
  dsimp only
  cases hrun : (dispatch rt).runFrom { m.state with world := rt.environment m.state.world } with
  | mk result state =>
    rw [hrun] at hworld
    cases result with
    | ok => exact hworld
    | error e =>
      cases e with
      | raised e => exact catchException_lasting hrt hworld
      | returned result => exact finishRun_lasting hrt hworld
      | native start args => exact hrt.startNative start args state.world hworld
      | fault => exact hworld

theorem finishNative_lasting (hrt : Lasting rt P) {result : Except (Raised V) V} {m : Machine V N W}
    (h : P m.state.world) : P (Machine.finishNative rt result m).state.world := by
  unfold Machine.finishNative
  cases result with
  | error e => exact catchException_lasting hrt h
  | ok value =>
    have hworld := push_preserves (N := N) (P := P) (v := value) m.state h
    dsimp only
    cases hrun : (push value : Exec V N W Unit).runFrom m.state with
    | mk result state =>
      rw [hrun] at hworld
      cases result with
      | ok => exact hworld
      | error e =>
        cases e with
        | raised e => exact catchException_lasting hrt hworld
        | _ => exact hworld

theorem callBack_lasting (hrt : Lasting rt P) {callee : V} {args : List V} {next : N}
    {m : Machine V N W} (h : P m.state.world) :
    P (Machine.callBack rt callee args next m).state.world := by
  have hpushes : Preserves P (do push callee; pushAll (Machine.callbackArguments rt callee args) :
      Exec V N W Unit) := push_preserves.bind fun _ => pushAll_preserves _
  have hworld := hpushes m.state h
  unfold Machine.callBack
  dsimp only
  cases hrun : (do push callee; pushAll (Machine.callbackArguments rt callee args) :
      Exec V N W Unit).runFrom m.state with
  | mk result state =>
    rw [hrun] at hworld
    cases result with
    | error e =>
      cases e with
      | raised e => exact resumeNative_lasting hrt hworld
      | _ => exact hworld
    | ok =>
      have hpreserves : Preserves P
          (callValue rt callee (Machine.callbackArguments rt callee args).length) :=
        callValue_preserves
      have hworld' := hpreserves { state with baseDepth := state.frames.length } hworld
      dsimp only
      cases hrun' : (callValue rt callee (Machine.callbackArguments rt callee args).length).runFrom
          { state with baseDepth := state.frames.length } with
      | mk result' state' =>
        rw [hrun'] at hworld'
        cases result' with
        | ok => exact hworld'
        | error e =>
          cases e with
          | raised e => exact resumeNative_lasting hrt hworld'
          | _ => exact hworld'

/-- No step ends a lasting property. -/
theorem step_lasting (hrt : Lasting rt P) {m : Machine V N W} (h : P m.state.world) :
    P (Machine.step rt m).state.world := by
  unfold Machine.step
  split
  · exact runInstruction_lasting hrt h
  · exact finishNative_lasting hrt h
  · split
    · exact h
    · exact callBack_lasting hrt h
  · exact h
  · exact h

end Luma.Vm
