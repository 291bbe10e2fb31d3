-- SUMMARY: What fetching, exception dispatch and native calls do to control.
import Luma.Vm.Effects

/-! # Unwinding

The control of a VM after the fetch of an instruction, after an exception was
dispatched, and around the calls of native code. -/

namespace Luma.Vm

open Codec Stateful

variable {V N W α β : Type} {rt : Runtime V N W} {c : Control} {p : FramePosition}
  {rest : List FramePosition}

/-! ## Fetching -/

/-- Everything one turn of the dispatch loop can do to control. -/
inductive Dispatches (rt : Runtime V N W) (p : FramePosition) (rest : List FramePosition)
    (c : Control) : Ending → Control → Prop where
  | executes {op : Op} {e : Ending} {c' : Control}
      (hop : Op.ofByte (byteAt (rt.function p.function).chunk.code p.ip) = some op)
      (hexecutes : Executes rt op p.ip p rest c e c') : Dispatches rt p rest c e c'
  | fails {ip : Nat}
      (hfetch : (rt.function p.function).chunk.code.length ≤ p.ip ∨
        Op.ofByte (byteAt (rt.function p.function).chunk.code p.ip) = none) :
      Dispatches rt p rest c .raised (c.moveTo ip)

theorem dispatch_dispatches (hframes : c.frames = p :: rest) :
    Triple (Has c) (dispatch rt) (fun _ s => Dispatches rt p rest c .done s.control)
      (fun e s => Dispatches rt p rest c e.ending s.control) := by
  have hhere : Has (c.moveTo p.ip) = (Has c : State V W → Prop) := by rw [Control.moveTo_ip hframes]
  rw [← hhere, dispatch, ensureBytecodeAvailable, bind_assoc]
  refine currentFrame_bind hframes fun cf hfunction hip _ => ?_
  rw [hfunction, hip]
  by_cases hend : (rt.function p.function).chunk.code.length < p.ip + 1
  · rw [if_pos hend]
    refine Triple.bind (Q := fun _ _ => False) (Triple.throw.weaken_pre fun s hs => ?_)
      fun _ _ h => h.elim
    rw [show s.control = _ from hs]
    exact .fails (Or.inl (by omega))
  · rw [if_neg hend, pure_bind]
    refine Triple.bind (nextByte_has hframes (by omega)) fun byte => ?_
    rintro s ⟨rfl, hs⟩
    rw [UInt8.ofNat_toNat]
    cases hop : Op.ofByte (byteAt (rt.function p.function).chunk.code p.ip) with
    | some op =>
      exact ((execute_executes hframes).conseq (fun _ hs => hs) (fun _ _ h => .executes hop h)
        (fun _ _ h => .executes hop h)) s hs
    | none =>
      change Dispatches rt p rest c .raised s.control
      rw [show s.control = _ from hs]
      exact .fails (Or.inr hop)

theorem Dispatches.baseDepth {e : Ending} {c' : Control} (h : Dispatches rt p rest c e c')
    (hfault : e ≠ .fault) : c'.baseDepth = c.baseDepth := by
  cases h with
  | fails => rfl
  | executes hop hexecutes =>
    cases hexecutes with
    | overruns => exact absurd rfl hfault
    | _ => rfl

/-! ## Exception dispatch -/

/-- A handler that can be resumed: it belongs to the live frame `q`. -/
structure ResumableAt (rt : Runtime V N W) (c : Control) (h : ExceptionHandler) (q : FramePosition) :
    Prop where
  frame : c.frames.reverse[h.frameIndex]? = some q
  function : h.function = q.function
  stackDepth : h.stackDepth ≤ c.height
  taskScopeDepth : h.taskScopeDepth ≤ c.taskScopes
  catchIp : h.catchIp ≤ (rt.function q.function).chunk.code.length

/-- The control that resuming at the handler of the frame `q` leaves. -/
def Control.resume (c : Control) (h : ExceptionHandler) (q : FramePosition) : Control :=
  { c with
    frames := { q with ip := h.catchIp } :: c.frames.drop (c.frames.length - h.frameIndex)
    height := h.stackDepth + 1
    taskScopes := h.taskScopeDepth }

/-- What is left when the error value no longer fits on the stack. -/
def Control.unwindTo (c : Control) (h : ExceptionHandler) : Control :=
  { c with
    frames := c.frames.drop (c.frames.length - (h.frameIndex + 1))
    height := h.stackDepth
    taskScopes := h.taskScopeDepth }

theorem drop_of_reverse_getElem? {l : List α} {index : Nat} {x : α} (h : l.reverse[index]? = some x) :
    l.drop (l.length - (index + 1)) = x :: l.drop (l.length - index) := by
  obtain ⟨hlt, hx⟩ := List.getElem?_eq_some_iff.mp h
  rw [List.length_reverse] at hlt
  rw [List.getElem_reverse] at hx
  rw [← hx, List.drop_eq_getElem_cons (by omega)]
  congr 1
  · congr 1
    omega
  · congr 1
    omega

theorem unwindTo_control {h : ExceptionHandler} {s : State V W}
    (hscopes : h.taskScopeDepth ≤ s.taskScopes) : (unwindTo rt h s).control = s.control.unwindTo h := by
  simp only [unwindTo, endCancelShieldsFrom, State.control, Control.unwindTo, length_truncateTo,
    List.map_drop, List.length_map, Nat.min_eq_right hscopes]

theorem resumeAtHandler_has {h : ExceptionHandler} {errorValue : V} {q : FramePosition}
    (hresumable : ResumableAt rt c h q) :
    Triple (Has c) (resumeAtHandler rt h errorValue)
      (fun _ s => h.stackDepth < maxStack ∧ Has (c.resume h q) s)
      (fun e s => e.ending = .raised ∧ maxStack ≤ h.stackDepth ∧ Has (c.unwindTo h) s) := by
  refine Triple.bind (Q := fun _ => Has (c.unwindTo h)) (Triple.modify.weaken_pre fun s hs => ?_)
    fun _ => ?_
  · cases hs
    exact unwindTo_control hresumable.taskScopeDepth
  have hresumed : ((c.unwindTo h).withHeight (h.stackDepth + 1)).moveTo h.catchIp = c.resume h q := by
    simp only [Control.moveTo, Control.withHeight, Control.unwindTo, Control.resume,
      drop_of_reverse_getElem? hresumable.frame]
  rw [← hresumed]
  refine Triple.bind push_has fun _ => Triple.assume fun hspace => ?_
  exact setIp_has.conseq (fun _ hs => hs) (fun _ _ hs => ⟨hspace, hs⟩) (fun _ _ h => h)

/-- What dispatching an exception does to control. It is caught by `h` when `caught`
    is some `h`, and otherwise leaves the dispatch loop. The handlers above the one
    that catches are gone. -/
inductive Unwinds (rt : Runtime V N W) (c : Control) : Option ExceptionHandler → Control → Prop where
  | resumes {h : ExceptionHandler} {q : FramePosition} {handlers : List ExceptionHandler}
      (hhandlers : h :: handlers <:+ c.handlers) (hbase : c.baseDepth ≤ h.frameIndex)
      (hresumable : ResumableAt rt c h q) (hspace : h.stackDepth < maxStack) :
      Unwinds rt c (some h) ((c.withHandlers handlers).resume h q)
  | overflows {h : ExceptionHandler} {q : FramePosition} {handlers : List ExceptionHandler}
      (hhandlers : h :: handlers <:+ c.handlers) (hbase : c.baseDepth ≤ h.frameIndex)
      (hresumable : ResumableAt rt c h q) (hspace : maxStack ≤ h.stackDepth) :
      Unwinds rt c none ((c.withHandlers handlers).unwindTo h)
  | leaves {handlers : List ExceptionHandler} (hhandlers : handlers <:+ c.handlers) :
      Unwinds rt c none (c.withHandlers handlers)

theorem Unwinds.baseDepth {caught : Option ExceptionHandler} {c' : Control} (h : Unwinds rt c caught c') :
    c'.baseDepth = c.baseDepth := by
  cases h <;> rfl

theorem isValidHandler_resumable {s : State V W} {h : ExceptionHandler}
    (hvalid : isValidHandler rt s h = true) : ∃ q, ResumableAt rt s.control h q := by
  unfold isValidHandler at hvalid
  split at hvalid
  · cases hvalid
  next frame hframe =>
    simp only [Bool.and_eq_true, decide_eq_true_eq] at hvalid
    obtain ⟨⟨⟨hstack, hscopes⟩, hfunction⟩, hcatch⟩ := hvalid
    refine ⟨frame.position, ?_, hfunction, hstack, hscopes, hcatch⟩
    rw [State.control, ← List.map_reverse, List.getElem?_map]
    rw [frameAt] at hframe
    rw [hframe]
    rfl

/-- What dispatching an exception promises about the state it leaves. -/
def Caught (rt : Runtime V N W) (c : Control) (caught : Bool) (s : State V W) : Prop :=
  if caught then ∃ h, Unwinds rt c (some h) s.control else Unwinds rt c none s.control

def Escapes (rt : Runtime V N W) (c : Control) (e : Exit V N) (s : State V W) : Prop :=
  e.ending = .raised ∧ Unwinds rt c none s.control

/-- Resuming at a handler after the ones above it were dropped. -/
theorem resumeAtHandler_unwinds {h : ExceptionHandler} {q : FramePosition}
    {handlers : List ExceptionHandler} {errorValue : V}
    (hhandlers : h :: handlers <:+ c.handlers) (hbase : c.baseDepth ≤ h.frameIndex)
    (hresumable : ResumableAt rt c h q) :
    Triple (Has (c.withHandlers handlers))
      (do resumeAtHandler rt h errorValue; shieldCleanup rt h; return true : Exec V N W Bool)
      (Caught rt c) (Escapes rt c) := by
  have hdropped : ResumableAt rt (c.withHandlers handlers) h q := { hresumable with }
  refine Triple.bind ((resumeAtHandler_has hdropped).conseq (fun _ hs => hs) (fun _ _ hs => hs) ?_)
    fun _ => Triple.assume fun hspace => ?_
  · rintro e s ⟨hraised, hfull, hs⟩
    refine ⟨hraised, ?_⟩
    rw [show s.control = _ from hs]
    exact .overflows hhandlers hbase hresumable hfull
  · refine Triple.bind (Q := fun _ => Has ((c.withHandlers handlers).resume h q))
      (Triple.modify.weaken_pre fun s hs => ?_) fun _ => Triple.pure.weaken_pre fun s hs => ⟨h, ?_⟩
    · split <;> exact hs
    · rw [show s.control = _ from hs]
      exact .resumes hhandlers hbase hresumable hspace

theorem handleError_unwinds {message : ErrorMessage} {payload : Option V} :
    Triple (Has c) (handleError rt message payload) (Caught rt c) (Escapes rt c) := by
  refine get_bind_has fun s hs => ?_
  cases hs
  have hdeclined : Unwinds rt s.control none s.control := .leaves (List.suffix_refl s.handlers)
  refine Triple.ite (fun _ => Triple.pure.weaken_pre fun _ ht => ht ▸ hdeclined) fun hhandler => ?_
  split
  · exact Triple.pure.weaken_pre fun _ ht => ht ▸ hdeclined
  next h handlers hcons =>
    have hsuffix : h :: handlers <:+ s.control.handlers := hcons ▸ List.suffix_rfl
    have hbase : s.baseDepth ≤ h.frameIndex := by
      simpa [hasHandlerFor, hcons] using hhandler
    refine Triple.bind (Q := fun _ => Has (s.control.withHandlers handlers))
      (Triple.set.weaken_pre fun _ _ => rfl) fun _ => Triple.ite (fun _ => ?_) fun hvalid => ?_
    · refine Triple.pure.weaken_pre fun t ht => ?_
      change Unwinds rt s.control none t.control
      rw [show t.control = _ from ht]
      exact .leaves ((List.suffix_cons h handlers).trans hsuffix)
    · obtain ⟨q, hresumable⟩ := isValidHandler_resumable (by simpa using hvalid)
      exact resumeAtHandler_unwinds hsuffix hbase hresumable

/-- A cancellation stops at a handler that can be resumed, or at none. -/
theorem cancellationTarget_spec {selfCancelled : Bool} {s : State V W} :
    ∀ {handlers : List ExceptionHandler},
      (cancellationTarget rt selfCancelled s handlers).2 <:+ handlers ∧
        ∀ h, (cancellationTarget rt selfCancelled s handlers).1 = some h →
          h :: (cancellationTarget rt selfCancelled s handlers).2 <:+ handlers ∧
            s.baseDepth ≤ h.frameIndex ∧ ∃ q, ResumableAt rt s.control h q := by
  intro handlers
  induction handlers with
  | nil => exact ⟨List.suffix_rfl, fun h hnone => nomatch hnone⟩
  | cons g handlers ih =>
    unfold cancellationTarget
    split
    · exact ⟨List.suffix_rfl, fun h hnone => nomatch hnone⟩
    next hbase =>
      split
      · exact ⟨List.suffix_cons g handlers, fun h hnone => nomatch hnone⟩
      next hvalid =>
        split
        · refine ⟨List.suffix_cons g handlers, fun h hsome => ?_⟩
          cases hsome
          exact ⟨List.suffix_rfl, Nat.not_lt.mp hbase, isValidHandler_resumable (by simpa using hvalid)⟩
        · refine ⟨ih.1.trans (List.suffix_cons g handlers), fun h hsome => ?_⟩
          obtain ⟨hsuffix, hresumable⟩ := ih.2 h hsome
          exact ⟨hsuffix.trans (List.suffix_cons g handlers), hresumable⟩

theorem handleCancellation_unwinds {marker : V} {message : ErrorMessage} :
    Triple (Has c) (handleCancellation rt marker message) (Caught rt c) (Escapes rt c) := by
  refine get_bind_has fun s hs => ?_
  cases hs
  have hspec : (cancellationTarget rt (rt.isCancelled s.world) s s.handlers).2 <:+ s.handlers ∧ _ :=
    cancellationTarget_spec
  dsimp only
  generalize cancellationTarget rt (rt.isCancelled s.world) s s.handlers = target at hspec
  obtain ⟨target, handlers⟩ := target
  refine Triple.bind (Q := fun _ => Has (s.control.withHandlers handlers))
    (Triple.set.weaken_pre fun _ _ => rfl) fun _ => ?_
  cases target with
  | none =>
    refine Triple.pure.weaken_pre fun t ht => ?_
    change Unwinds rt s.control none t.control
    rw [show t.control = _ from ht]
    exact .leaves hspec.1
  | some h =>
    obtain ⟨hsuffix, hbase, q, hresumable⟩ := hspec.2 h rfl
    exact resumeAtHandler_unwinds hsuffix hbase hresumable

theorem handleException_unwinds {e : Raised V} :
    Triple (Has c) (handleException rt e) (Caught rt c) (Escapes rt c) := by
  cases e with
  | error message payload => exact handleError_unwinds
  | cancelled message => exact handleCancellation_unwinds
  | foreign =>
    refine Triple.pure.weaken_pre fun s hs => ?_
    cases hs
    exact .leaves (List.suffix_refl s.handlers)

/-! ## Native calls -/

theorem cleanUpCall_control {savedStackSize previousBase : Nat} {s : State V W} :
    (Machine.cleanUpCall rt savedStackSize previousBase s).control =
      s.control.cleanUp savedStackSize previousBase := by
  have hlength : s.frames.length - (s.frames.length - s.baseDepth) = min s.baseDepth s.frames.length := by
    omega
  simp only [Machine.cleanUpCall, discardFramesFrom, State.control, Control.cleanUp, Control.discardFrom,
    length_truncateTo, List.map_drop, List.length_map, List.length_drop, hlength]

/-- A new activation starts at the current frames. -/
def Control.rebase (c : Control) : Control := { c with baseDepth := c.frames.length }

/-- How a call of native code into the VM begins. -/
inductive CallsBack (rt : Runtime V N W) (m : Machine V N W) (next : N) : Machine V N W → Prop where
  /-- The callee and its arguments do not fit on the stack. -/
  | overflows {e : Raised V} {state : State V W} {height : Nat}
      (hheight : m.state.stack.length ≤ height)
      (hcontrol : state.control = m.state.control.withHeight height) :
      CallsBack rt m next (Machine.resumeNative rt next (.error e) { m with state })
  /-- The call is refused. -/
  | refused {e : Raised V} {state : State V W} {height : Nat}
      (hheight : m.state.stack.length ≤ height)
      (hcontrol : state.control = m.state.control.rebase.withHeight height) :
      CallsBack rt m next (Machine.resumeNative rt next (.error e)
        { m with state := Machine.cleanUpCall rt m.state.stack.length m.state.baseDepth state })
  | starts {id : FunctionId} {state : State V W}
      (hcontrol : state.control =
        m.state.control.rebase.enter id m.state.stack.length (rt.function id).arity) :
      CallsBack rt m next
        { state
          activations := ⟨m.state.baseDepth, m.state.stack.length, m.scopeBase, next⟩ :: m.activations
          scopeBase := state.taskScopes
          mode := .running }

theorem callBack_callsBack {m : Machine V N W} {callee : V} {args : List V} {next : N}
    (hnative : ∀ start, rt.callee callee ≠ .native start) (hframes : m.state.control.frames ≠ []) :
    CallsBack rt m next (Machine.callBack rt callee args next m) := by
  generalize hargs : Machine.callbackArguments rt callee args = passed
  have hpushes : Moves 0 (passed.length + 1) (do push callee; pushAll passed : Exec V N W Unit) :=
    (push_moves.bind fun _ => pushAll_moves passed).cast (by omega) (by omega)
  have hpushed := hpushes m.state.control hframes m.state rfl
  simp only [Machine.callBack, hargs]
  cases hrun : (do push callee; pushAll passed : Exec V N W Unit).runFrom m.state with
  | mk result state =>
    rw [hrun] at hpushed
    cases result with
    | error e =>
      cases e <;> try exact hpushed.elim
      obtain ⟨height, hheight, hcontrol⟩ := hpushed
      exact .overflows ((Nat.sub_zero _).symm.trans_le hheight) hcontrol
    | ok =>
      obtain ⟨-, hcontrol⟩ := hpushed
      have hheight : state.stack.length = m.state.stack.length + (passed.length + 1) :=
        congrArg Control.height hcontrol
      have hrebased : ({ state with baseDepth := state.frames.length } : State V W).control =
          m.state.control.rebase.withHeight (m.state.stack.length + (passed.length + 1)) := by
        have hlength : state.frames.length = m.state.control.frames.length := by
          simpa [State.control] using congrArg (List.length ∘ Control.frames) hcontrol
        have hbase : ({ state with baseDepth := state.frames.length } : State V W).control =
            { state.control with baseDepth := state.frames.length } := rfl
        rw [hbase, hcontrol, hlength]
        rfl
      have hcalls : Triple
          (Has (m.state.control.rebase.withHeight (m.state.stack.length + (passed.length + 1))))
          (callValue rt callee passed.length) _ _ :=
        callValue_enters hframes (by simp) hnative
      have hcall := hcalls _ hrebased
      have hprevious : state.baseDepth = m.state.baseDepth := congrArg Control.baseDepth hcontrol
      dsimp only
      cases hrun' : (callValue rt callee passed.length).runFrom
          { state with baseDepth := state.frames.length } with
      | mk result' state' =>
        rw [hrun'] at hcall
        cases result' with
        | error e =>
          cases e <;> try exact hcall.elim
          obtain ⟨height, hle, hcontrol'⟩ := hcall
          simp only [Control.height_withHeight] at hle
          dsimp only
          rw [hprevious]
          exact .refused (by omega) hcontrol'
        | ok =>
          obtain ⟨id, hcontrol'⟩ := hcall
          dsimp only
          rw [hprevious]
          have hentered : state'.control =
              m.state.control.rebase.enter id m.state.stack.length (rt.function id).arity := by
            rw [show state'.control = _ from hcontrol']
            simp only [Control.height_withHeight, Nat.add_sub_cancel]
            rfl
          exact .starts hentered

end Luma.Vm
