-- SUMMARY: Runs of verified functions never leave the instructions the verifier saw.
import Luma.Bytecode.Flow
import Luma.Vm.Steps

/-! # Runs of Verified Functions

Functions the verifier accepted are executed without some of the checks of other
functions. Every frame of such a function stays where control can flow, and every
handler leads there, so no instruction reads outside the code or a table. -/

namespace Luma.Vm

open Codec Stateful BytecodeVerifier

variable {V N W : Type} {rt : Runtime V N W} {c c' : Control} {p : FramePosition}
  {rest : List FramePosition}

/-- The functions marked as verified were accepted by the verifier, and leave only by
    returning. -/
structure VerifiedProgram (rt : Runtime V N W) : Prop where
  accepts : ∀ id, (rt.function id).verified = true → Accepts (rt.function id)
  leaves : ∀ id, (rt.function id).verified = true → LeavesByReturning (rt.function id).chunk.code

/-! ## The invariant -/

/-- If the function is verified, control can reach the offset in it. -/
def FlowsTo (rt : Runtime V N W) (id : FunctionId) (offset : Nat) : Prop :=
  (rt.function id).verified = true → Reaches (rt.function id).chunk.code offset

/-- Frames that wait for a call are where control can be, and so are handlers. -/
structure Unwindable (rt : Runtime V N W) (c : Control) : Prop where
  handlers : ∀ h ∈ c.handlers, FlowsTo rt h.function h.catchIp
  callers : ∀ q ∈ c.frames.tail, FlowsTo rt q.function q.ip
  live : c.baseDepth < c.frames.length

/-- The current frame is at an instruction, too. -/
structure AtInstruction (rt : Runtime V N W) (c : Control) : Prop where
  handlers : ∀ h ∈ c.handlers, FlowsTo rt h.function h.catchIp
  frames : ∀ q ∈ c.frames, FlowsTo rt q.function q.ip
  live : c.baseDepth < c.frames.length

/-- The frame of the activation was left. -/
structure Left (rt : Runtime V N W) (c : Control) : Prop where
  handlers : ∀ h ∈ c.handlers, FlowsTo rt h.function h.catchIp
  frames : ∀ q ∈ c.frames, FlowsTo rt q.function q.ip
  depth : c.baseDepth ≤ c.frames.length

theorem AtInstruction.unwindable (h : AtInstruction rt c) : Unwindable rt c where
  handlers := h.handlers
  callers := fun q hq => h.frames q (List.mem_of_mem_tail hq)
  live := h.live

theorem AtInstruction.left (h : AtInstruction rt c) : Left rt c where
  handlers := h.handlers
  frames := h.frames
  depth := h.live.le

/-- What the invariant says after each end of an instruction. -/
def SafeEnd (rt : Runtime V N W) : Ending → Control → Prop
  | .done, c => AtInstruction rt c
  | .native, c => AtInstruction rt c
  | .raised, c => Unwindable rt c
  | .returned, c => Left rt c
  | .fault, _ => False

/-! ## One instruction -/

theorem successors_of_flowEdges {op : Op} {code : Bytes} {offset height target height' : Nat}
    (h : (target, height') ∈ flowEdges op code offset height) : target ∈ successors op code offset := by
  unfold flowEdges at h
  dsimp only at h
  split at h
  case h_1 | h_2 | h_3 | h_4 => exact absurd h List.not_mem_nil
  case h_5 =>
    cases List.mem_singleton.mp h
    exact List.mem_singleton.mpr rfl
  case h_6 =>
    rw [successors]
    split at h
    next hstart =>
      cases List.mem_singleton.mp h
      rw [if_pos hstart]
      exact List.mem_singleton.mpr rfl
    · exact absurd h List.not_mem_nil
  case h_7 | h_8 | h_9 =>
    rcases List.mem_cons.mp h with h | h
    · cases h
      exact List.mem_cons.mpr (Or.inl rfl)
    · cases List.mem_singleton.mp h
      exact List.mem_cons_of_mem _ (List.mem_singleton.mpr rfl)
  case h_10 | h_11 =>
    rcases List.mem_cons.mp h with h | h
    · cases h
      exact List.mem_singleton.mpr rfl
    · cases List.mem_singleton.mp h
      exact List.mem_singleton.mpr rfl
  case h_12 =>
    cases List.mem_singleton.mp h
    unfold successors
    split <;> simp_all

theorem operandsFit_of_fetchable {func : CompiledFunction} {op : Op} {offset : Nat}
    (h : FetchableAt func op offset) : OperandsFit func op offset := by
  refine ⟨h.whole, fun hop => ?_⟩
  subst hop
  exact h.operand

/-- A frame stays where control flows. -/
theorem FlowsTo.next {id : FunctionId} {op : Op} {offset target : Nat} (h : FlowsTo rt id offset)
    (hop : Op.ofByte (byteAt (rt.function id).chunk.code offset) = some op)
    (htarget : target ∈ successors op (rt.function id).chunk.code offset) : FlowsTo rt id target :=
  fun hverified => (h hverified).edge hop htarget

theorem next_mem_successors_of_isCall {op : Op} {code : Bytes} {offset : Nat} (h : isCall op = true) :
    offset + instructionSizeOf op code offset ∈ successors op code offset := by
  cases op <;> first | exact absurd h (by decide) | exact List.mem_singleton.mpr rfl

theorem mem_of_discard {frameCount : Nat} {h : ExceptionHandler} {handlers : List ExceptionHandler}
    (hmem : h ∈ handlers.dropWhile fun h => frameCount ≤ h.frameIndex) : h ∈ handlers :=
  (List.dropWhile_sublist _).subset hmem

/-- Executing an instruction keeps the invariant, and reads nothing outside. -/
theorem Executes.safe {op : Op} {e : Ending} (hexecutes : Executes rt op p.ip p rest c e c')
    (hop : Op.ofByte (byteAt (rt.function p.function).chunk.code p.ip) = some op)
    (hfetch : (rt.function p.function).verified = true → FetchableAt (rt.function p.function) op p.ip)
    (hmodule : (rt.function p.function).verified = true → op ≠ .endModule)
    (hframes : c.frames = p :: rest) (hsafe : AtInstruction rt c) : SafeEnd rt e c' := by
  have hhere : FlowsTo rt p.function p.ip := hsafe.frames p (hframes ▸ List.mem_cons_self)
  have hrest : ∀ q ∈ rest, FlowsTo rt q.function q.ip :=
    fun q hq => hsafe.frames q (hframes ▸ List.mem_cons_of_mem _ hq)
  have hlive : c.baseDepth < rest.length + 1 := by simpa [hframes] using hsafe.live
  -- A frame that goes on inside its function.
  have hmoves : ∀ {t : Nat} {d : Control}, t ∈ successors op (rt.function p.function).chunk.code p.ip →
      d.frames = (c.moveTo t).frames → d.baseDepth = c.baseDepth →
      (∀ h ∈ d.handlers, FlowsTo rt h.function h.catchIp) → AtInstruction rt d := by
    intro t d htarget hd hbase hhandlers
    rw [Control.frames_moveTo hframes] at hd
    refine ⟨hhandlers, fun q hq => ?_, by simpa [hd, hbase] using hlive⟩
    rw [hd] at hq
    rcases List.mem_cons.mp hq with rfl | hq
    · exact hhere.next hop htarget
    · exact hrest q hq
  cases hexecutes with
  | flows hedge => exact hmoves (successors_of_flowEdges hedge) rfl rfl hsafe.handlers
  | installs hop' hspace =>
    subst hop'
    refine hmoves (t := p.ip + 5) List.mem_cons_self rfl rfl fun h hh => ?_
    rcases List.mem_cons.mp hh with rfl | hh
    · exact hhere.next hop (List.mem_cons_of_mem _ (List.mem_singleton.mpr rfl))
    · exact hsafe.handlers h hh
  | removes hop' hhandlers =>
    subst hop'
    refine hmoves (t := p.ip + 1) (List.mem_singleton.mpr rfl) rfl rfl fun h hh => ?_
    exact hsafe.handlers h (hhandlers ▸ List.mem_cons_of_mem _ hh)
  | opensScope hop' =>
    subst hop'
    exact hmoves (t := p.ip + 1) (List.mem_singleton.mpr rfl) rfl rfl hsafe.handlers
  | @closesScope _ height hop' hopen hend =>
    subst hop'
    have hnext : AtInstruction rt
        (((c.moveTo (p.ip + 1)).withScopes (c.taskScopes - 1)).withHeight height) :=
      hmoves (List.mem_singleton.mpr rfl) rfl rfl hsafe.handlers
    rcases hend with ⟨rfl, -⟩ | ⟨rfl, -⟩
    · exact hnext
    · exact hnext.unwindable
  | @calls id pops hop' hpops hheight =>
    have hcaller := hmoves (next_mem_successors_of_isCall hop') rfl rfl hsafe.handlers
    refine ⟨hsafe.handlers, fun q hq => ?_, hcaller.live.trans (Nat.lt_succ_self _)⟩
    rcases List.mem_cons.mp hq with rfl | hq
    · exact fun _ => .entry
    · exact hcaller.frames q hq
  | callsNative hop' hpops hheight =>
    exact hmoves (next_mem_successors_of_isCall hop') rfl rfl hsafe.handlers
  | tailCalls hop' =>
    refine ⟨fun h hh => hsafe.handlers h (mem_of_discard hh), fun q hq => ?_, hlive⟩
    rcases List.mem_cons.mp hq with rfl | hq
    · exact fun _ => .entry
    · exact hrest q hq
  | returns hop' hend =>
    have hhandlers := fun h (hh : h ∈ (c.discardFrom rest.length).handlers) =>
      hsafe.handlers h (mem_of_discard hh)
    rcases hend with ⟨rfl, hbase, -⟩ | ⟨rfl, hbase, -⟩ | ⟨rfl, hbase, -⟩
    · exact ⟨hhandlers, hrest, hbase⟩
    · exact ⟨hhandlers, fun q hq => hrest q (List.mem_of_mem_tail hq), hbase⟩
    · exact ⟨hhandlers, hrest, Nat.lt_succ_iff.mp hlive⟩
  | ends hop' =>
    have hframes' := Control.frames_moveTo (a := p.ip + 1) hframes
    refine ⟨hsafe.handlers, fun q hq => ?_, ?_⟩
    · rw [hframes'] at hq
      rcases List.mem_cons.mp hq with rfl | hq
      · exact fun hverified => absurd hop' (hmodule hverified)
      · exact hrest q hq
    · rw [hframes']
      exact hlive.le
  | @raises ip height hheight =>
    have hframes' := Control.frames_moveTo (a := ip) hframes
    refine ⟨hsafe.handlers, fun q hq => ?_, ?_⟩
    · rw [Control.frames_withHeight, hframes'] at hq
      exact hrest q hq
    · rw [Control.frames_withHeight, hframes']
      exact hlive
  | overruns hverified hfit => exact hfit (operandsFit_of_fetchable (hfetch hverified))

/-- Control of verified functions is where an instruction can be fetched. -/
theorem VerifiedProgram.fetchable (hprogram : VerifiedProgram rt) {id : FunctionId} {offset : Nat}
    (hverified : (rt.function id).verified = true) (hflows : FlowsTo rt id offset) :
    ∃ op, FetchableAt (rt.function id) op offset :=
  (hprogram.accepts id hverified).fetchable (hprogram.leaves id hverified) (hflows hverified)

theorem Dispatches.safe {e : Ending} (hprogram : VerifiedProgram rt)
    (hdispatches : Dispatches rt p rest c e c') (hframes : c.frames = p :: rest)
    (hsafe : AtInstruction rt c) : SafeEnd rt e c' := by
  have hhere : FlowsTo rt p.function p.ip := hsafe.frames p (hframes ▸ List.mem_cons_self)
  cases hdispatches with
  | executes hop hexecutes =>
    refine hexecutes.safe hop (fun hverified => ?_) (fun hverified hend => ?_) hframes hsafe
    · obtain ⟨op, hfetch⟩ := hprogram.fetchable hverified hhere
      cases Option.some.inj (hop.symm.trans hfetch.decodes)
      exact hfetch
    · obtain ⟨op, hfetch⟩ := hprogram.fetchable hverified hhere
      exact (hprogram.leaves _ hverified _ _ hfetch.boundary hop).1 hend
  | @fails ip hfetch =>
    have hframes' := Control.frames_moveTo (a := ip) hframes
    refine ⟨hsafe.handlers, fun q hq => ?_, ?_⟩
    · rw [hframes'] at hq
      exact hsafe.frames q (hframes ▸ List.mem_cons_of_mem _ hq)
    · rw [hframes']
      simpa [hframes] using hsafe.live

/-! ## Unwinding -/

theorem Unwinds.safe {caught : Option ExceptionHandler} (hunwinds : Unwinds rt c caught c')
    (hsafe : Unwindable rt c) :
    (caught ≠ none → AtInstruction rt c') ∧ Unwindable rt c' := by
  -- Frames below the one resumed at wait for a call.
  have hcallers : ∀ {index : Nat}, 0 < index → ∀ q ∈ c.frames.drop index, FlowsTo rt q.function q.ip := by
    intro index hpos q hq
    refine hsafe.callers q ?_
    rw [← List.drop_one]
    exact (List.drop_sublist_drop_left _ hpos).subset hq
  cases hunwinds with
  | @resumes h q handlers hhandlers hbase hresumable hspace =>
    obtain ⟨hlt, -⟩ := List.getElem?_eq_some_iff.mp hresumable.frame
    rw [List.length_reverse] at hlt
    have hresumed : AtInstruction rt ((c.withHandlers handlers).resume h q) := by
      refine ⟨fun g hg => hsafe.handlers g (hhandlers.subset (List.mem_cons_of_mem _ hg)), ?_, ?_⟩
      · intro r hr
        rcases List.mem_cons.mp hr with rfl | hr
        · have hflows := hsafe.handlers h (hhandlers.subset List.mem_cons_self)
          rw [hresumable.function] at hflows
          exact hflows
        · exact hcallers (Nat.sub_pos_of_lt hlt) r hr
      · simp only [Control.resume, Control.withHandlers, List.length_cons, List.length_drop]
        omega
    exact ⟨fun _ => hresumed, hresumed.unwindable⟩
  | @overflows h q handlers hhandlers hbase hresumable hspace =>
    obtain ⟨hlt, -⟩ := List.getElem?_eq_some_iff.mp hresumable.frame
    rw [List.length_reverse] at hlt
    refine ⟨fun hne => absurd rfl hne, ?_⟩
    refine ⟨fun g hg => hsafe.handlers g (hhandlers.subset (List.mem_cons_of_mem _ hg)), ?_, ?_⟩
    · intro r hr
      rw [Control.unwindTo, ← List.drop_one, List.drop_drop] at hr
      exact hcallers (by omega) r hr
    · simp only [Control.unwindTo, Control.withHandlers, List.length_drop]
      omega
  | leaves hhandlers =>
    refine ⟨fun hne => absurd rfl hne, ?_⟩
    exact ⟨fun g hg => hsafe.handlers g (hhandlers.subset hg), hsafe.callers, hsafe.live⟩

/-! ## Runs -/

/-- What holds of a VM in every state of a run. -/
structure Secure (rt : Runtime V N W) (m : Machine V N W) : Prop where
  unfaulted : m.mode ≠ .faulted
  /-- Each activation starts above the one it suspends. -/
  bases : (m.state.baseDepth :: m.activations.map Activation.previousBase).Pairwise (· > ·)
  running : (∀ result, m.mode ≠ .finished result) → AtInstruction rt m.state.control

theorem Unwindable.cleanUp {savedStackSize previousBase : Nat} (hsafe : Unwindable rt c)
    (hbase : previousBase < c.baseDepth) :
    AtInstruction rt (c.cleanUp savedStackSize previousBase) := by
  have hlive := hsafe.live
  refine ⟨fun h hh => hsafe.handlers h (mem_of_discard hh), fun q hq => hsafe.callers q ?_, ?_⟩
  · rw [← List.drop_one]
    exact (List.drop_sublist_drop_left _ (by omega)).subset hq
  · simp only [Control.cleanUp, List.length_drop]
    omega

theorem Secure.leaveRun {m : Machine V N W} {e : Raised V}
    (hbases : (m.state.baseDepth :: m.activations.map Activation.previousBase).Pairwise (· > ·))
    (hsafe : Unwindable rt m.state.control) : Secure rt (Machine.leaveRun rt e m) := by
  unfold Machine.leaveRun
  split
  · exact ⟨(fun h => nomatch h), hbases, fun hrunning => absurd rfl (hrunning _)⟩
  next a activations hactivations =>
    rw [hactivations, List.map_cons, List.pairwise_cons] at hbases
    obtain ⟨hbelow, hbases⟩ := hbases
    refine ⟨(fun h => nomatch h), hbases, fun _ => ?_⟩
    change AtInstruction rt (Machine.cleanUpCall rt a.savedStackSize a.previousBase m.state).control
    rw [cleanUpCall_control]
    exact hsafe.cleanUp (hbelow _ List.mem_cons_self)

theorem Secure.finishRun {m : Machine V N W} {result : V}
    (hbases : (m.state.baseDepth :: m.activations.map Activation.previousBase).Pairwise (· > ·))
    (hleft : Left rt m.state.control) : Secure rt (Machine.finishRun rt result m) := by
  unfold Machine.finishRun
  split
  · exact ⟨(fun h => nomatch h), hbases, fun hrunning => absurd rfl (hrunning _)⟩
  next a activations hactivations =>
    rw [hactivations, List.map_cons, List.pairwise_cons] at hbases
    obtain ⟨hbelow, hbases⟩ := hbases
    refine ⟨(fun h => nomatch h), hbases, fun _ => ⟨hleft.handlers, hleft.frames, ?_⟩⟩
    exact (hbelow _ List.mem_cons_self).trans_le hleft.depth

theorem Secure.catchException {m : Machine V N W} {e : Raised V}
    (hbases : (m.state.baseDepth :: m.activations.map Activation.previousBase).Pairwise (· > ·))
    (hsafe : Unwindable rt m.state.control) : Secure rt (Machine.catchException rt e m) := by
  have hunwinds : Triple (Has m.state.control) (handleException rt e) _ _ := handleException_unwinds
  have hend := hunwinds m.state rfl
  unfold Machine.catchException
  cases hrun : (handleException rt e).runFrom m.state with
  | mk result state =>
    rw [hrun] at hend
    cases result with
    | ok caught =>
      cases caught with
      | true =>
        obtain ⟨h, hunwinds⟩ := hend
        have hbase : state.baseDepth = m.state.baseDepth := hunwinds.baseDepth
        exact ⟨(fun h => nomatch h), hbase ▸ hbases,
          fun _ => (hunwinds.safe hsafe).1 (fun h => nomatch h)⟩
      | false =>
        have hunwinds : Unwinds rt m.state.control none state.control := hend
        have hbase : state.baseDepth = m.state.baseDepth := hunwinds.baseDepth
        obtain ⟨hhandlers, hcallers, hlive⟩ := (hunwinds.safe hsafe).2
        refine Secure.leaveRun ?_ ⟨hhandlers, hcallers, hlive⟩
        exact hbase ▸ hbases
    | error e' =>
      obtain ⟨hraised, hunwinds⟩ := hend
      have hbase : state.baseDepth = m.state.baseDepth := hunwinds.baseDepth
      cases e' with
      | raised e' => exact Secure.leaveRun (hbase ▸ hbases) (hunwinds.safe hsafe).2
      | returned => cases hraised
      | native => cases hraised
      | fault => cases hraised

theorem Secure.runInstruction {m : Machine V N W} (hprogram : VerifiedProgram rt)
    (hsecure : Secure rt m) (hmode : m.mode = .running) : Secure rt (Machine.runInstruction rt m) := by
  have hsafe : AtInstruction rt m.state.control := hsecure.running fun _ h => nomatch hmode.symm.trans h
  obtain ⟨p, rest, hframes⟩ : ∃ p rest, m.state.control.frames = p :: rest :=
    List.exists_cons_of_length_pos (Nat.zero_lt_of_lt hsafe.live)
  have hbases := hsecure.bases
  have hdispatches : Triple (Has m.state.control) (dispatch rt) _ _ := dispatch_dispatches hframes
  have hend := hdispatches { m.state with world := rt.environment m.state.world } rfl
  unfold Machine.runInstruction
  dsimp only
  cases hrun : (dispatch rt).runFrom { m.state with world := rt.environment m.state.world } with
  | mk result state =>
    rw [hrun] at hend
    cases result with
    | ok =>
      have hnext : SafeEnd rt .done state.control := Dispatches.safe hprogram hend hframes hsafe
      have hbase : state.baseDepth = m.state.baseDepth := Dispatches.baseDepth hend (fun h => nomatch h)
      refine ⟨(fun h => nomatch hmode.symm.trans h), ?_, fun _ => hnext⟩
      exact hbase ▸ hbases
    | error e =>
      have hnext : SafeEnd rt e.ending state.control := Dispatches.safe hprogram hend hframes hsafe
      cases e with
      | raised e =>
        have hbase : state.baseDepth = m.state.baseDepth := Dispatches.baseDepth hend (fun h => nomatch h)
        exact Secure.catchException (hbase ▸ hbases) hnext
      | returned value =>
        have hbase : state.baseDepth = m.state.baseDepth := Dispatches.baseDepth hend (fun h => nomatch h)
        exact Secure.finishRun (hbase ▸ hbases) hnext
      | native start args =>
        have hbase : state.baseDepth = m.state.baseDepth := Dispatches.baseDepth hend (fun h => nomatch h)
        refine ⟨(fun h => nomatch h), ?_, fun _ => hnext⟩
        exact hbase ▸ hbases
      | fault => exact hnext.elim

theorem Secure.finishNative {m : Machine V N W} {result : Except (Raised V) V}
    (hbases : (m.state.baseDepth :: m.activations.map Activation.previousBase).Pairwise (· > ·))
    (hsafe : AtInstruction rt m.state.control) : Secure rt (Machine.finishNative rt result m) := by
  unfold Machine.finishNative
  cases result with
  | error e => exact Secure.catchException hbases hsafe.unwindable
  | ok value =>
    have hend := push_has (N := N) (c := m.state.control) (v := value) m.state rfl
    dsimp only
    cases hrun : (push value : Exec V N W Unit).runFrom m.state with
    | mk end_ state =>
      rw [hrun] at hend
      cases end_ with
      | ok =>
        have hcontrol : state.control = m.state.control.withHeight (m.state.control.height + 1) := hend.2
        have hbase : state.baseDepth = m.state.baseDepth := congrArg Control.baseDepth hcontrol
        refine ⟨(fun h => nomatch h), hbase ▸ hbases, fun _ => ?_⟩
        change AtInstruction rt state.control
        rw [hcontrol]
        exact ⟨hsafe.handlers, hsafe.frames, hsafe.live⟩
      | error e =>
        obtain ⟨hraised, -, hcontrol⟩ := hend
        have hbase : state.baseDepth = m.state.baseDepth := congrArg Control.baseDepth hcontrol
        cases e with
        | raised e =>
          refine Secure.catchException (hbase ▸ hbases) ?_
          change Unwindable rt state.control
          rw [show state.control = _ from hcontrol]
          exact hsafe.unwindable
        | returned => cases hraised
        | native => cases hraised
        | fault => cases hraised

theorem Secure.callBack {m : Machine V N W} {callee : V} {args : List V} {next : N}
    (hnative : ∀ start, rt.callee callee ≠ .native start)
    (hbases : (m.state.baseDepth :: m.activations.map Activation.previousBase).Pairwise (· > ·))
    (hsafe : AtInstruction rt m.state.control) : Secure rt (Machine.callBack rt callee args next m) := by
  have hframes : m.state.control.frames ≠ [] := List.ne_nil_of_length_pos (Nat.zero_lt_of_lt hsafe.live)
  have hlive : m.state.baseDepth < m.state.control.frames.length := hsafe.live
  have hcalls : CallsBack rt m next (Machine.callBack rt callee args next m) :=
    callBack_callsBack hnative hframes
  generalize Machine.callBack rt callee args next m = called at hcalls ⊢
  cases hcalls with
  | @overflows e state height hheight hcontrol =>
    have hbase : state.baseDepth = m.state.baseDepth := congrArg Control.baseDepth hcontrol
    refine ⟨by rintro ⟨⟩, hbase ▸ hbases, fun _ => ?_⟩
    change AtInstruction rt state.control
    rw [hcontrol]
    exact ⟨hsafe.handlers, hsafe.frames, hsafe.live⟩
  | @refused e state height hheight hcontrol =>
    refine ⟨by rintro ⟨⟩, hbases, fun _ => ?_⟩
    change AtInstruction rt (Machine.cleanUpCall rt _ _ state).control
    rw [cleanUpCall_control, hcontrol]
    refine ⟨fun h hh => hsafe.handlers h (mem_of_discard hh), fun q hq => hsafe.frames q ?_, ?_⟩
    · exact (List.drop_sublist _ _).subset hq
    · change m.state.baseDepth < (m.state.control.frames.drop _).length
      simpa [Control.rebase, Control.withHeight] using hlive
  | @starts id state hcontrol =>
    have hbase : state.baseDepth = m.state.control.frames.length := congrArg Control.baseDepth hcontrol
    refine ⟨by rintro ⟨⟩, ?_, fun _ => ?_⟩
    · simp only [List.map_cons, List.pairwise_cons, hbase]
      refine ⟨fun b hb => ?_, List.pairwise_cons.mp hbases⟩
      rcases List.mem_cons.mp hb with rfl | hb
      · exact hlive
      · exact ((List.pairwise_cons.mp hbases).1 b hb).trans hlive
    · change AtInstruction rt state.control
      rw [hcontrol]
      refine ⟨hsafe.handlers, fun q hq => ?_, Nat.lt_succ_self _⟩
      rcases List.mem_cons.mp hq with rfl | hq
      · exact fun _ => .entry
      · exact hsafe.frames q hq

/-- One step of the VM keeps the invariant. -/
theorem Secure.step {m : Machine V N W} (hprogram : VerifiedProgram rt) (hsecure : Secure rt m) :
    Secure rt (Machine.step rt m) := by
  unfold Machine.step
  split
  next hmode => exact hsecure.runInstruction hprogram hmode
  next result hmode =>
    exact Secure.finishNative hsecure.bases (hsecure.running fun _ h => nomatch hmode.symm.trans h)
  next callee args next hmode =>
    split
    · exact hsecure
    next hnative =>
      exact Secure.callBack hnative hsecure.bases (hsecure.running fun _ h => nomatch hmode.symm.trans h)
  · exact hsecure
  · exact hsecure

theorem Secure.start {id : FunctionId} {closure : V} {args : List V} {world : W} :
    Secure rt (Machine.start id closure args world : Machine V N W) := by
  refine ⟨(fun h => nomatch h), List.pairwise_singleton _ _, fun _ => ?_⟩
  refine ⟨fun h hh => absurd hh List.not_mem_nil, fun q hq => ?_, Nat.one_pos⟩
  cases List.mem_singleton.mp hq
  exact fun _ => .entry

theorem Secure.reachable {m m' : Machine V N W} (hprogram : VerifiedProgram rt) (hsecure : Secure rt m)
    (hreach : Machine.Reachable rt m m') : Secure rt m' := by
  induction hreach with
  | refl => exact hsecure
  | step _ ih => exact ih.step hprogram

/-- The VM is about to fetch the instruction at `offset` of a function. -/
def Fetches (m : Machine V N W) (id : FunctionId) (offset : Nat) : Prop :=
  m.mode = .running ∧ ∃ cf frames, m.state.frames = cf :: frames ∧ cf.function = id ∧ cf.ip = offset

/-- In every state of every run, an instruction of a verified function is fetched from
    a boundary inside the code, with all its operands inside the code and its index
    inside the table it is for; and no step reads outside the code or a table. -/
theorem verified_runs_safe {id : FunctionId} {closure : V} {args : List V} {world : W}
    {m : Machine V N W} (hprogram : VerifiedProgram rt)
    (hreach : Machine.Reachable rt (Machine.start id closure args world) m) :
    m.mode ≠ .faulted ∧ (m.mode = .running → ∃ id offset, Fetches m id offset) ∧
      ∀ id offset, Fetches m id offset → (rt.function id).verified = true →
        ∃ op, FetchableAt (rt.function id) op offset := by
  have hsecure := Secure.start.reachable hprogram hreach
  refine ⟨hsecure.unfaulted, fun hmode => ?_, ?_⟩
  · have hlive := (hsecure.running fun _ h => nomatch hmode.symm.trans h).live
    have hlength : 0 < m.state.frames.length := by
      simpa [State.control] using Nat.zero_lt_of_lt hlive
    obtain ⟨cf, frames, hframes⟩ := List.exists_cons_of_length_pos hlength
    exact ⟨cf.function, cf.ip, hmode, cf, frames, hframes, rfl, rfl⟩
  · rintro id offset ⟨hmode, cf, frames, hframes, rfl, rfl⟩ hverified
    have hsafe := hsecure.running fun _ h => nomatch hmode.symm.trans h
    have hmem : cf.position ∈ m.state.control.frames := by
      simp [State.control, hframes]
    exact hprogram.fetchable hverified (hsafe.frames cf.position hmem)

/-! ## A function that makes a closure -/

/-- A verified function without constants, names, parameters or upvalues. -/
def verifiedFunction (code : Bytes) : CompiledFunction where
  name := []
  chunk := { Chunk.empty with code }
  arity := 0
  requiredArity := 0
  upvalueCount := 0
  paramNames := []
  debugInfo := ⟨[], []⟩
  upvalues := []
  isMain := false
  isTest := false
  verified := true

/-- A program of one function over a single value, with no function to make a closure of. -/
def bareRuntime (func : CompiledFunction) : Runtime Unit Unit Unit where
  function := fun _ => func
  functionTable := fun _ => []
  limits := ⟨1000, 1000, 1000⟩
  none := ()
  ofConstant := fun _ => ()
  ofBool := fun _ => ()
  ofString := fun _ => ()
  isTruthy := fun _ => false
  toStringValue := fun v => v
  typeName := fun _ => "none"
  callee := fun _ => .notCallable
  coalesced := fun _ => none
  piped := fun _ => none
  bindArguments := fun _ _ _ => .ok fun _ => ()
  compute := fun _ _ _ _ w => (.ok (), w)
  iterate := fun _ _ w => (.ok .exhausted, w)
  makeExclusive := fun v w => (v, w)
  rethrown := fun v => .error "" (some v)
  isCancelled := fun _ => false
  isCancellationMarker := fun _ => false
  environment := fun w => w
  startNative := fun _ _ w => (.finish (.ok ()), w)
  resumeNative := fun _ result w => (.finish result, w)

/-- The code `MakeClosure 0; Return`. -/
def closureCode : Bytes := [Op.makeClosure.toByte, 0, 0, 0, Op.return_.toByte]

theorem boundary_of_closureCode {offset : Nat} (h : IsBoundary closureCode offset) :
    offset = 0 ∨ offset = 4 ∨ offset = 5 := by
  induction h with
  | start => exact Or.inl rfl
  | next _ hinside hop ih =>
    rcases ih with rfl | rfl | rfl
    · cases hop
      exact Or.inr (Or.inl rfl)
    · cases hop
      exact Or.inr (Or.inr rfl)
    · exact absurd hinside (by decide)

theorem closureCode_verified : VerifiedProgram (bareRuntime (verifiedFunction closureCode)) where
  accepts := fun _ _ => ⟨-1, rfl⟩
  leaves := fun _ _ offset op hboundary hop => by
    rcases boundary_of_closureCode hboundary with rfl | rfl | rfl <;> cases hop <;>
      exact ⟨(fun h => nomatch h), (fun h => nomatch h)⟩

theorem verified_runs_safe_sample :
    let rt := bareRuntime (verifiedFunction closureCode)
    let m : Machine Unit Unit Unit := Machine.step rt (Machine.start 0 () [] ())
    m.mode ≠ .faulted ∧ (m.mode = .running → ∃ id offset, Fetches m id offset) ∧
      ∀ id offset, Fetches m id offset → (rt.function id).verified = true →
        ∃ op, FetchableAt (rt.function id) op offset :=
  verified_runs_safe closureCode_verified (.step .refl)

/-- An error that is caught is caught by the innermost handler. -/
theorem handleError_innermost {message : ErrorMessage} {payload : Option V} {s : State V W} :
    Triple (· = s) (handleError rt message payload)
      (fun caught t => caught = true → ∃ h, s.handlers = h :: t.handlers) (fun _ _ => True) := by
  refine Triple.get_bind fun s' hs => ?_
  cases hs
  refine Triple.ite (fun _ => Triple.pure.weaken_pre fun _ _ h => nomatch h) fun _ => ?_
  split
  · exact Triple.pure.weaken_pre fun _ _ h => nomatch h
  next h handlers hcons =>
    refine Triple.bind (Q := fun _ => Has (s.control.withHandlers handlers))
      (Triple.set.weaken_pre fun _ _ => rfl)
      fun _ => Triple.ite (fun _ => Triple.pure.weaken_pre fun _ _ h => nomatch h) fun hvalid => ?_
    obtain ⟨q, hresumable⟩ := isValidHandler_resumable (by simpa using hvalid)
    have hdropped : ResumableAt rt (s.control.withHandlers handlers) h q := { hresumable with }
    refine Triple.bind ((resumeAtHandler_has hdropped).conseq (fun _ ht => ht) (fun _ _ ht => ht.2)
      fun _ _ _ => trivial) fun _ => ?_
    refine Triple.bind (Q := fun _ => Has ((s.control.withHandlers handlers).resume h q))
      (Triple.modify.weaken_pre fun t ht => ?_) fun _ => Triple.pure.weaken_pre fun t ht _ => ⟨h, ?_⟩
    · split <;> exact ht
    · have hhandlers : t.control.handlers = handlers := by rw [show t.control = _ from ht]; rfl
      rw [hcons, ← hhandlers]
      rfl

/-- The function table is not the verifier's: accepted code can index past it. -/
theorem makeClosure_index_not_verified :
    ¬ ∀ (rt : Runtime Unit Unit Unit) (m : Machine Unit Unit Unit) (id offset : Nat),
      VerifiedProgram rt → Machine.Reachable rt (Machine.start 0 () [] ()) m → Fetches m id offset →
      Op.ofByte (byteAt (rt.function id).chunk.code offset) = some .makeClosure →
      readU16At (rt.function id).chunk.code (offset + 1) < (rt.functionTable id).length := by
  intro hclaim
  have hlt := hclaim _ _ 0 0 closureCode_verified .refl ⟨rfl, _, _, rfl, rfl, rfl⟩ rfl
  exact absurd hlt (Nat.not_lt_zero _)

end Luma.Vm
