-- SUMMARY: Everything one step of the VM can do, and how handlers and frames are nested.
import Luma.Vm.Cancellation
import Luma.Vm.Unwinding
import Luma.Vm.World

/-! # Steps

What a step of the VM does to control and to the suspended native calls. In every state of
a run a handler belongs to a frame that is there, and the handlers of inner frames lie
above those of outer ones. -/

namespace Luma.Vm

open Codec Stateful

variable {V N W : Type} {rt : Runtime V N W} {c c' : Control} {p : FramePosition}
  {rest : List FramePosition}

/-! ## Handlers and frames -/

/-- Handlers belong to frames, the innermost first. -/
structure Nested (c : Control) : Prop where
  sorted : c.handlers.Pairwise fun h g => g.frameIndex ≤ h.frameIndex
  live : ∀ h ∈ c.handlers, h.frameIndex < c.frames.length

theorem Nested.suffix {handlers : List ExceptionHandler} (h : Nested c)
    (hsuffix : handlers <:+ c.handlers) : Nested (c.withHandlers handlers) where
  sorted := h.sorted.sublist hsuffix.sublist
  live := fun g hg => h.live g (hsuffix.subset hg)

theorem Nested.congr (h : Nested c) (hhandlers : c'.handlers = c.handlers)
    (hframes : c'.frames.length = c.frames.length) : Nested c' where
  sorted := hhandlers ▸ h.sorted
  live := fun g hg => hframes ▸ h.live g (hhandlers ▸ hg)

/-- The handlers below the innermost one belong to its frame or to outer ones. -/
theorem Nested.below {h : ExceptionHandler} {handlers : List ExceptionHandler} (hnested : Nested c)
    (hsuffix : h :: handlers <:+ c.handlers) : ∀ g ∈ handlers, g.frameIndex ≤ h.frameIndex :=
  (List.pairwise_cons.mp (hnested.suffix hsuffix).sorted).1

theorem Nested.discardFrom {frameCount : Nat} (h : Nested c) :
    ∀ g ∈ (c.discardFrom frameCount).handlers, g.frameIndex < frameCount := by
  have hsorted := h.sorted
  intro g hg
  simp only [Control.discardFrom] at hg
  generalize c.handlers = handlers at hsorted hg
  induction handlers with
  | nil => cases hg
  | cons head tail ih =>
    obtain ⟨hbelow, htail⟩ := List.pairwise_cons.mp hsorted
    by_cases hdrop : frameCount ≤ head.frameIndex
    · rw [List.dropWhile_cons_of_pos (by simpa using hdrop)] at hg
      exact ih htail hg
    · rw [List.dropWhile_cons_of_neg (by simpa using hdrop)] at hg
      obtain rfl | hg := List.mem_cons.mp hg
      · exact Nat.not_le.mp hdrop
      · exact (hbelow g hg).trans_lt (Nat.not_le.mp hdrop)

theorem discardFrom_suffix {frameCount : Nat} :
    (c.discardFrom frameCount).handlers <:+ c.handlers := List.dropWhile_suffix _

theorem length_moveTo {ip : Nat} : (c.moveTo ip).frames.length = c.frames.length := by
  cases c with
  | mk frames => cases frames <;> rfl

/-- Leaving frames with their handlers. -/
theorem Nested.leave {frames : List FramePosition} {height : Nat} (h : Nested c) :
    Nested { c.discardFrom frames.length with frames, height } where
  sorted := h.sorted.sublist discardFrom_suffix.sublist
  live := h.discardFrom

theorem Executes.nested {op : Op} {e : Ending} (hexecutes : Executes rt op p.ip p rest c e c')
    (hframes : c.frames = p :: rest) (hnested : Nested c) (hfault : e ≠ .fault) : Nested c' := by
  have hlength : c.frames.length = rest.length + 1 := by rw [hframes, List.length_cons]
  cases hexecutes with
  | flows => exact hnested.congr rfl length_moveTo
  | installs =>
    refine ⟨List.pairwise_cons.mpr ⟨fun g hg => ?_, hnested.sorted⟩, fun g hg => ?_⟩
    · have := hnested.live g hg
      simp only
      omega
    · rw [Control.withHandlers, length_moveTo, hlength]
      obtain rfl | hg := List.mem_cons.mp hg
      · exact Nat.lt_succ_self _
      · exact hlength ▸ hnested.live g hg
  | removes hop hhandlers =>
    refine Nested.congr (c := c.withHandlers _) (hnested.suffix ?_) rfl length_moveTo
    exact hhandlers ▸ List.suffix_cons _ _
  | opensScope | closesScope => exact hnested.congr rfl length_moveTo
  | calls =>
    refine ⟨hnested.sorted, fun g hg => (hnested.live g hg).trans_le ?_⟩
    simp only [Control.enter, List.length_cons, length_moveTo]
    omega
  | callsNative => exact hnested.congr rfl length_moveTo
  | tailCalls =>
    refine ⟨hnested.sorted.sublist discardFrom_suffix.sublist, fun g hg => ?_⟩
    exact (hnested.discardFrom g hg).trans (Nat.lt_succ_self _)
  | returns => exact hnested.leave
  | ends => exact hnested.congr rfl length_moveTo
  | raises => exact hnested.congr rfl length_moveTo
  | overruns => exact absurd rfl hfault

theorem Dispatches.nested {e : Ending} (h : Dispatches rt p rest c e c') (hframes : c.frames = p :: rest)
    (hnested : Nested c) (hfault : e ≠ .fault) : Nested c' := by
  cases h with
  | executes hop hexecutes => exact hexecutes.nested hframes hnested hfault
  | fails => exact hnested.congr rfl length_moveTo

theorem Unwinds.nested {caught : Option ExceptionHandler} (h : Unwinds rt c caught c')
    (hnested : Nested c) : Nested c' := by
  cases h with
  | @resumes h q handlers hhandlers _ hresumable _ =>
    obtain ⟨hlt, -⟩ := List.getElem?_eq_some_iff.mp hresumable.frame
    rw [List.length_reverse] at hlt
    refine ⟨(hnested.suffix ((List.suffix_cons h handlers).trans hhandlers)).sorted, fun g hg => ?_⟩
    have hbelow := hnested.below hhandlers g hg
    simp only [Control.resume, Control.withHandlers, List.length_cons, List.length_drop]
    omega
  | @overflows h q handlers hhandlers _ hresumable _ =>
    obtain ⟨hlt, -⟩ := List.getElem?_eq_some_iff.mp hresumable.frame
    rw [List.length_reverse] at hlt
    refine ⟨(hnested.suffix ((List.suffix_cons h handlers).trans hhandlers)).sorted, fun g hg => ?_⟩
    have hbelow := hnested.below hhandlers g hg
    simp only [Control.unwindTo, Control.withHandlers, List.length_drop]
    omega
  | leaves hhandlers => exact hnested.suffix hhandlers

theorem Nested.cleanUp {savedStackSize previousBase : Nat} (h : Nested c) :
    Nested (c.cleanUp savedStackSize previousBase) where
  sorted := h.sorted.sublist discardFrom_suffix.sublist
  live := fun g hg => by
    have hlt := h.discardFrom g hg
    simp only [Control.cleanUp, List.length_drop]
    omega

/-! ## The dispatch of exceptions -/

/-- What the dispatch of an exception makes of the VM. -/
inductive Settles (rt : Runtime V N W) (m : Machine V N W) : Machine V N W → Prop where
  | resumes {h : ExceptionHandler} {state : State V W}
      (hunwinds : Unwinds rt m.state.control (some h) state.control)
      (hworld : state.world = m.state.world) : Settles rt m { m with state, mode := .running }
  | leaves {e : Raised V} {state : State V W} {taskScopes : Nat}
      (hunwinds : Unwinds rt m.state.control none state.control)
      (hworld : state.world = m.state.world) :
      Settles rt m (Machine.leaveRun rt e { m with state := { state with taskScopes } })

theorem catchException_settles {m : Machine V N W} {e : Raised V} :
    Settles rt m (Machine.catchException rt e m) := by
  have hunwinds : Triple (Has m.state.control) (handleException rt e) _ _ := handleException_unwinds
  have hend := hunwinds m.state rfl
  have hworld : ((handleException rt e).runFrom m.state).2.world = m.state.world :=
    handleException_preserves (P := (· = m.state.world)) m.state rfl
  unfold Machine.catchException
  cases hrun : (handleException rt e).runFrom m.state with
  | mk result state =>
    rw [hrun] at hend hworld
    cases result with
    | ok caught =>
      cases caught with
      | true =>
        obtain ⟨h, hunwinds⟩ := hend
        exact .resumes hunwinds hworld
      | false => exact .leaves hend hworld
    | error e' =>
      obtain ⟨hraised, hunwinds⟩ := hend
      cases e' with
      | raised e' =>
        change Settles rt m
          (Machine.leaveRun rt e' { m with state := { state with taskScopes := state.taskScopes } })
        exact .leaves hunwinds hworld
      | returned => cases hraised
      | native => cases hraised
      | fault => cases hraised

/-! ## One step -/

/-- Everything one step of the VM can do. -/
inductive Steps (rt : Runtime V N W) (m : Machine V N W) : Machine V N W → Prop where
  | executes {p : FramePosition} {rest : List FramePosition} {state : State V W}
      (hmode : m.mode = .running) (hframes : m.state.control.frames = p :: rest)
      (hdispatches : Dispatches rt p rest m.state.control .done state.control) :
      Steps rt m { m with state }
  | fails {p : FramePosition} {rest : List FramePosition} {e : Raised V} {state : State V W}
      {m' : Machine V N W} (hmode : m.mode = .running) (hraises : Raises rt m e state)
      (hframes : m.state.control.frames = p :: rest)
      (hdispatches : Dispatches rt p rest m.state.control .raised state.control)
      (hcatch : m' = Machine.catchException rt e { m with state }) : Steps rt m m'
  | returns {p : FramePosition} {rest : List FramePosition} {result : V} {state : State V W}
      (hmode : m.mode = .running) (hframes : m.state.control.frames = p :: rest)
      (hdispatches : Dispatches rt p rest m.state.control .returned state.control) :
      Steps rt m (Machine.finishRun rt result { m with state })
  | entersNative {p : FramePosition} {rest : List FramePosition} {state : State V W} {world : W}
      {action : NativeAction V N} (hmode : m.mode = .running)
      (hframes : m.state.control.frames = p :: rest)
      (hdispatches : Dispatches rt p rest m.state.control .native state.control) :
      Steps rt m { m with state := { state with world }, mode := .native action }
  | faults {state : State V W} (hmode : m.mode = .running)
      (hrun : (dispatch rt).runFrom { m.state with world := rt.environment m.state.world } =
        (.error .fault, state)) : Steps rt m { m with state, mode := .faulted }
  | leavesNative {state : State V W} {v : V} (hmode : m.mode = .native (.finish (.ok v)))
      (hcontrol : state.control = m.state.control.withHeight (m.state.stack.length + 1)) :
      Steps rt m { m with state, mode := .running }
  | failsNative {e : Raised V} {result : Except (Raised V) V} {state : State V W} {m' : Machine V N W}
      (hmode : m.mode = .native (.finish result)) (hraises : Raises rt m e state)
      (hcontrol : state.control = m.state.control)
      (hcatch : m' = Machine.catchException rt e { m with state }) : Steps rt m m'
  | callsBack {callee : V} {args : List V} {next : N} {m' : Machine V N W}
      (hmode : m.mode = .native (.call callee args next)) (hcalls : CallsBack rt m next m') :
      Steps rt m m'
  | waits (hmode : m.mode ≠ .running) : Steps rt m m

theorem runInstruction_steps {m : Machine V N W} (hframes : m.state.control.frames = p :: rest)
    (hmode : m.mode = .running) : Steps rt m (Machine.runInstruction rt m) := by
  have hdispatches : Triple (Has m.state.control) (dispatch rt) _ _ := dispatch_dispatches hframes
  have hend := hdispatches { m.state with world := rt.environment m.state.world } rfl
  unfold Machine.runInstruction
  dsimp only
  cases hrun : (dispatch rt).runFrom { m.state with world := rt.environment m.state.world } with
  | mk result state =>
    rw [hrun] at hend
    cases result with
    | ok => exact .executes hmode hframes hend
    | error e =>
      cases e with
      | raised e => exact .fails hmode (.instruction hmode hrun) hframes hend rfl
      | returned result => exact .returns hmode hframes hend
      | native start args => exact .entersNative hmode hframes hend
      | fault => exact .faults hmode hrun

theorem finishNative_steps {m : Machine V N W} {result : Except (Raised V) V}
    (hmode : m.mode = .native (.finish result)) : Steps rt m (Machine.finishNative rt result m) := by
  cases result with
  | error e => exact .failsNative hmode (.native hmode) rfl rfl
  | ok value =>
    have hend := push_has (N := N) (c := m.state.control) (v := value) m.state rfl
    unfold Machine.finishNative
    dsimp only
    cases hrun : (push value : Exec V N W Unit).runFrom m.state with
    | mk result state =>
      rw [hrun] at hend
      cases result with
      | ok => exact .leavesNative hmode hend.2
      | error e =>
        obtain ⟨hraised, -, hcontrol⟩ := hend
        cases e with
        | raised e => exact .failsNative hmode (.overflow hmode hrun) hcontrol rfl
        | returned => cases hraised
        | native => cases hraised
        | fault => cases hraised

theorem step_steps {m : Machine V N W} (hframes : m.state.control.frames ≠ []) :
    Steps rt m (Machine.step rt m) := by
  obtain ⟨p, rest, hcons⟩ := List.exists_cons_of_ne_nil hframes
  unfold Machine.step
  split
  next hmode => exact runInstruction_steps hcons hmode
  next result hmode => exact finishNative_steps hmode
  next callee args next hmode =>
    split
    · exact .waits (by simp [hmode])
    next hnative => exact .callsBack hmode (callBack_callsBack hnative hframes)
  next hmode => exact .waits (by simp [hmode])
  next hmode => exact .waits (by simp [hmode])

/-- An exception in the dispatch loop is dispatched. -/
theorem Raises.step {m : Machine V N W} {e : Raised V} {s : State V W} (h : Raises rt m e s) :
    Machine.step rt m = Machine.catchException rt e { m with state := s } := by
  obtain ⟨state, activations, scopeBase, mode⟩ := m
  cases h with
  | instruction hmode hrun =>
    cases hmode
    simp only [Machine.step, Machine.runInstruction, hrun]
  | native hmode =>
    cases hmode
    rfl
  | overflow hmode hrun =>
    cases hmode
    simp only [Machine.step, Machine.finishNative, hrun]

/-! ## Handlers in runs -/

/-- What holds of a VM in every state of a run. -/
structure Orderly (m : Machine V N W) : Prop where
  nested : Nested m.state.control
  /-- Each activation starts above the one it suspends. -/
  bases : (m.state.baseDepth :: m.activations.map Activation.previousBase).Pairwise (· > ·)
  live : (∀ result, m.mode ≠ .finished result) → m.state.baseDepth < m.state.control.frames.length

theorem Executes.live {op : Op} {e : Ending} (h : Executes rt op p.ip p rest c e c')
    (hframes : c.frames = p :: rest) (hlive : c.baseDepth < c.frames.length) (hfault : e ≠ .fault) :
    c'.baseDepth = c.baseDepth ∧ c.baseDepth ≤ c'.frames.length ∧
      (e ≠ .returned → c.baseDepth < c'.frames.length) := by
  have hlength : c.frames.length = rest.length + 1 := by rw [hframes, List.length_cons]
  cases h with
  | overruns => exact absurd rfl hfault
  | returns hop hend =>
    refine ⟨rfl, by simp only; omega, fun hne => ?_⟩
    obtain ⟨-, h, -⟩ | ⟨-, h, -⟩ | ⟨rfl, -⟩ := hend
    · exact h
    · exact h
    · exact absurd rfl hne
  | tailCalls =>
    have : c.baseDepth < rest.length + 1 := hlength ▸ hlive
    exact ⟨rfl, this.le, fun _ => this⟩
  | calls =>
    have : c.baseDepth < (c.moveTo (p.ip + instructionSizeOf op
        (rt.function p.function).chunk.code p.ip)).frames.length := by rwa [length_moveTo]
    exact ⟨rfl, this.le.trans (Nat.le_succ _), fun _ => this.trans (Nat.lt_succ_self _)⟩
  | _ =>
    refine ⟨rfl, ?_, fun _ => ?_⟩
    · exact hlive.le.trans (length_moveTo (c := c)).ge
    · exact hlive.trans_le (length_moveTo (c := c)).ge

theorem Dispatches.live {e : Ending} (h : Dispatches rt p rest c e c') (hframes : c.frames = p :: rest)
    (hlive : c.baseDepth < c.frames.length) (hfault : e ≠ .fault) :
    c'.baseDepth = c.baseDepth ∧ c.baseDepth ≤ c'.frames.length ∧
      (e ≠ .returned → c.baseDepth < c'.frames.length) := by
  cases h with
  | executes _ hexecutes => exact hexecutes.live hframes hlive hfault
  | fails =>
    refine ⟨rfl, ?_, fun _ => ?_⟩
    · exact hlive.le.trans (length_moveTo (c := c)).ge
    · exact hlive.trans_le (length_moveTo (c := c)).ge

theorem Unwinds.live {caught : Option ExceptionHandler} (h : Unwinds rt c caught c')
    (hlive : c.baseDepth < c.frames.length) : c.baseDepth < c'.frames.length := by
  cases h with
  | @resumes h q handlers _ hbase hresumable _ =>
    obtain ⟨hlt, -⟩ := List.getElem?_eq_some_iff.mp hresumable.frame
    rw [List.length_reverse] at hlt
    simp only [Control.resume, Control.withHandlers, List.length_cons, List.length_drop]
    omega
  | @overflows h q handlers _ hbase hresumable _ =>
    obtain ⟨hlt, -⟩ := List.getElem?_eq_some_iff.mp hresumable.frame
    rw [List.length_reverse] at hlt
    simp only [Control.unwindTo, Control.withHandlers, List.length_drop]
    omega
  | leaves => exact hlive

theorem Orderly.leaveRun {m : Machine V N W} {e : Raised V} (hnested : Nested m.state.control)
    (hbases : (m.state.baseDepth :: m.activations.map Activation.previousBase).Pairwise (· > ·))
    (hlive : m.state.baseDepth < m.state.control.frames.length) :
    Orderly (Machine.leaveRun rt e m) := by
  unfold Machine.leaveRun
  split
  · exact ⟨hnested, hbases, fun hrunning => absurd rfl (hrunning _)⟩
  next a activations hactivations =>
    rw [hactivations, List.map_cons, List.pairwise_cons] at hbases
    obtain ⟨hbelow, hbases⟩ := hbases
    have hlt : a.previousBase < m.state.baseDepth := hbelow _ List.mem_cons_self
    have hcontrol : (Machine.cleanUpCall rt a.savedStackSize a.previousBase m.state).control =
        m.state.control.cleanUp a.savedStackSize a.previousBase := cleanUpCall_control
    refine ⟨?_, hbases, fun _ => ?_⟩
    · change Nested (Machine.cleanUpCall rt a.savedStackSize a.previousBase m.state).control
      rw [hcontrol]
      exact hnested.cleanUp
    · change a.previousBase <
        (Machine.cleanUpCall rt a.savedStackSize a.previousBase m.state).control.frames.length
      rw [hcontrol]
      have hbase : m.state.control.baseDepth = m.state.baseDepth := rfl
      simp only [Control.cleanUp, List.length_drop]
      omega

theorem Orderly.settles {m m' : Machine V N W} (hnested : Nested m.state.control)
    (hbases : (m.state.baseDepth :: m.activations.map Activation.previousBase).Pairwise (· > ·))
    (hlive : m.state.baseDepth < m.state.control.frames.length) (h : Settles rt m m') : Orderly m' := by
  cases h with
  | @resumes h state hunwinds =>
    have hbase : state.baseDepth = m.state.baseDepth := hunwinds.baseDepth
    refine ⟨hunwinds.nested hnested, hbase ▸ hbases, fun _ => ?_⟩
    change state.baseDepth < state.control.frames.length
    exact hbase ▸ hunwinds.live hlive
  | @leaves e state taskScopes hunwinds =>
    have hbase : state.baseDepth = m.state.baseDepth := hunwinds.baseDepth
    refine Orderly.leaveRun ((hunwinds.nested hnested).congr rfl rfl) (hbase ▸ hbases) ?_
    change state.baseDepth < state.control.frames.length
    exact hbase ▸ hunwinds.live hlive

theorem Orderly.steps {m m' : Machine V N W} (h : Orderly m)
    (hrunning : ∀ result, m.mode ≠ .finished result) (hsteps : Steps rt m m') :
    m'.mode = .faulted ∨ Orderly m' := by
  have hlive := h.live hrunning
  cases hsteps with
  | @executes p rest state hmode hframes hdispatches =>
    obtain ⟨hbase, -, hlive'⟩ := hdispatches.live hframes hlive nofun
    refine .inr ⟨hdispatches.nested hframes h.nested nofun, ?_, fun _ => ?_⟩
    · rw [show state.baseDepth = m.state.baseDepth from hbase]
      exact h.bases
    · change state.control.baseDepth < state.control.frames.length
      rw [hbase]
      exact hlive' nofun
  | @fails p rest e state m' hmode hraises hframes hdispatches hcatch =>
    obtain ⟨hbase, -, hlive'⟩ := hdispatches.live hframes hlive nofun
    rw [hcatch]
    refine .inr (Orderly.settles (hdispatches.nested hframes h.nested nofun) ?_ ?_
      catchException_settles)
    · rw [show state.baseDepth = m.state.baseDepth from hbase]
      exact h.bases
    · change state.control.baseDepth < state.control.frames.length
      rw [hbase]
      exact hlive' nofun
  | @returns p rest result state hmode hframes hdispatches =>
    obtain ⟨hbase, hle, -⟩ := hdispatches.live hframes hlive nofun
    have hnested := hdispatches.nested hframes h.nested nofun
    have hbases := h.bases
    right
    unfold Machine.finishRun
    split
    next hactivations =>
      refine ⟨hnested, ?_, fun hrunning => absurd rfl (hrunning _)⟩
      simp only [show m.activations = [] from hactivations]
      exact List.pairwise_singleton _ _
    next a activations hactivations =>
      rw [show m.activations = a :: activations from hactivations, List.map_cons,
        List.pairwise_cons] at hbases
      have hlt : a.previousBase < m.state.baseDepth := hbases.1 _ List.mem_cons_self
      exact ⟨hnested.congr rfl rfl, hbases.2, fun _ => hlt.trans_le hle⟩
  | @entersNative p rest state world action hmode hframes hdispatches =>
    obtain ⟨hbase, -, hlive'⟩ := hdispatches.live hframes hlive nofun
    refine .inr ⟨(hdispatches.nested hframes h.nested nofun).congr rfl rfl, ?_, fun _ => ?_⟩
    · simp only [show state.baseDepth = m.state.baseDepth from hbase]
      exact h.bases
    · change state.control.baseDepth < state.control.frames.length
      rw [hbase]
      exact hlive' nofun
  | faults => exact .inl rfl
  | @leavesNative state v hmode hcontrol =>
    have hbase : state.baseDepth = m.state.baseDepth := congrArg Control.baseDepth hcontrol
    refine .inr ⟨?_, hbase ▸ h.bases, fun _ => ?_⟩
    · change Nested state.control
      rw [hcontrol]
      exact h.nested.congr rfl rfl
    · change state.control.baseDepth < state.control.frames.length
      rw [hcontrol]
      exact hlive
  | @failsNative e result state m' hmode hraises hcontrol hcatch =>
    have hbase : state.baseDepth = m.state.baseDepth := congrArg Control.baseDepth hcontrol
    rw [hcatch]
    refine .inr (Orderly.settles ?_ (hbase ▸ h.bases) ?_ catchException_settles)
    · change Nested state.control
      rw [hcontrol]
      exact h.nested
    · change state.control.baseDepth < state.control.frames.length
      rw [hcontrol]
      exact hlive
  | callsBack hmode hcalls =>
    right
    cases hcalls with
    | @overflows e state height hheight hcontrol =>
      have hbase : state.baseDepth = m.state.baseDepth := congrArg Control.baseDepth hcontrol
      refine ⟨?_, hbase ▸ h.bases, fun _ => ?_⟩
      · change Nested state.control
        rw [hcontrol]
        exact h.nested.congr rfl rfl
      · change state.control.baseDepth < state.control.frames.length
        rw [hcontrol]
        exact hlive
    | @refused e state height hheight hcontrol =>
      have hclean : (Machine.cleanUpCall rt m.state.stack.length m.state.baseDepth state).control =
          (m.state.control.rebase.withHeight height).cleanUp m.state.stack.length
            m.state.baseDepth := by rw [cleanUpCall_control, hcontrol]
      refine ⟨?_, h.bases, fun _ => ?_⟩
      · change Nested (Machine.cleanUpCall rt m.state.stack.length m.state.baseDepth state).control
        rw [hclean]
        exact Nested.cleanUp (h.nested.congr rfl rfl)
      · change m.state.baseDepth <
          (Machine.cleanUpCall rt m.state.stack.length m.state.baseDepth state).control.frames.length
        rw [hclean]
        simpa [Control.cleanUp, Control.rebase, Control.withHeight] using hlive
    | @starts id state hcontrol =>
      have hbase : state.baseDepth = m.state.control.frames.length :=
        congrArg Control.baseDepth hcontrol
      refine ⟨?_, ?_, fun _ => ?_⟩
      · change Nested state.control
        rw [hcontrol]
        exact ⟨h.nested.sorted, fun g hg => (h.nested.live g hg).trans (Nat.lt_succ_self _)⟩
      · simp only [List.map_cons, List.pairwise_cons, hbase]
        refine ⟨fun b hb => ?_, List.pairwise_cons.mp h.bases⟩
        obtain rfl | hb := List.mem_cons.mp hb
        · exact hlive
        · exact ((List.pairwise_cons.mp h.bases).1 b hb).trans hlive
      · change state.control.baseDepth < state.control.frames.length
        rw [hcontrol]
        exact Nat.lt_succ_self _
  | waits => exact .inr h

theorem Orderly.step {m : Machine V N W} (h : Orderly m) :
    (Machine.step rt m).mode = .faulted ∨ Orderly (Machine.step rt m) := by
  by_cases hrunning : ∀ result, m.mode ≠ .finished result
  · have hlive := h.live hrunning
    exact h.steps hrunning (step_steps (List.ne_nil_of_length_pos (Nat.zero_lt_of_lt hlive)))
  · obtain ⟨result, hmode⟩ := not_forall_not.mp hrunning
    right
    rw [show Machine.step rt m = m by simp only [Machine.step, hmode]]
    exact h

theorem Orderly.start {id : FunctionId} {closure : V} {args : List V} {world : W} :
    Orderly (Machine.start id closure args world : Machine V N W) where
  nested := ⟨List.Pairwise.nil, fun _ hg => absurd hg List.not_mem_nil⟩
  bases := List.pairwise_singleton _ _
  live := fun _ => Nat.one_pos

theorem Orderly.reachable {m m' : Machine V N W} (h : Orderly m) (hreach : Machine.Reachable rt m m') :
    m'.mode = .faulted ∨ Orderly m' := by
  induction hreach with
  | refl => exact .inr h
  | @step m' hreach ih =>
    obtain hfaulted | h := ih
    · left
      rw [show Machine.step rt m' = m' by simp only [Machine.step, hfaulted]]
      exact hfaulted
    · exact h.step

end Luma.Vm
