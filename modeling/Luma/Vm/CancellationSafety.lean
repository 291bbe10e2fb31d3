-- SUMMARY: Nothing but finally bodies runs on the way of a cancellation out of a VM.
import Luma.Vm.NativeFunctions
import Luma.Vm.Steps
import Luma.Vm.VerifiedRuns

/-! # Cancellation Safety

A cancellation of the task itself is dispatched to a cleanup handler or to none. While the
code of that handler runs, its frame and its error value stay where they are, whatever the
body calls. -/

namespace Luma.Vm

open Codec Stateful

variable {V N W : Type} {rt : Runtime V N W} {c c' : Control} {p : FramePosition}
  {rest : List FramePosition} {body : Cleanup}

/-! ## The dispatch of a cancellation -/

/-- A task that is cancelled itself is only ever caught by its cleanup handlers. -/
theorem cancellationTarget_cleanup {s : State V W} {handlers : List ExceptionHandler}
    {h : ExceptionHandler} (htarget : (cancellationTarget rt true s handlers).1 = some h) :
    isCleanup rt h = true := by
  induction handlers with
  | nil => cases htarget
  | cons g handlers ih =>
    unfold cancellationTarget at htarget
    split at htarget
    · cases htarget
    split at htarget
    · cases htarget
    split at htarget
    next hcleanup =>
      cases htarget
      simpa using hcleanup
    · exact ih htarget

/-- Resuming at a handler that has room for the error value. -/
theorem catch_has {h : ExceptionHandler} {q : FramePosition} (errorValue : V)
    (hresumable : ResumableAt rt c h q) (hspace : h.stackDepth < maxStack) :
    Triple (Has c) (do resumeAtHandler rt h errorValue; shieldCleanup rt h; return true : Exec V N W Bool)
      (fun caught s => caught = true ∧ Has (c.resume h q) s) (fun _ _ => False) := by
  refine Triple.bind ((resumeAtHandler_has hresumable).conseq (fun _ hs => hs) (fun _ _ hs => hs.2)
    fun _ _ hs => absurd hspace (Nat.not_lt.mpr hs.2.1)) fun _ => ?_
  refine Triple.bind (Q := fun _ => Has (c.resume h q)) (Triple.modify.weaken_pre fun s hs => ?_)
    fun _ => Triple.pure.weaken_pre fun s hs => ⟨rfl, hs⟩
  split <;> exact hs

/-- How a cancellation of the task itself is dispatched. -/
inductive Relayed (rt : Runtime V N W) (message : ErrorMessage) (m : Machine V N W) :
    Machine V N W → Prop where
  | cleans {h : ExceptionHandler} {state : State V W} (hcleanup : isCleanup rt h = true)
      (hunwinds : Unwinds rt m.state.control (some h) state.control)
      (hworld : state.world = m.state.world) : Relayed rt message m { m with state, mode := .running }
  | leaves {state : State V W} (hworld : state.world = m.state.world) :
      Relayed rt message m (Machine.leaveRun rt (.cancelled message) { m with state })

theorem catchException_relayed {m : Machine V N W} {message : ErrorMessage}
    (hcancelled : rt.isCancelled m.state.world = true) (hroom : HasRoom m.state) :
    Relayed rt message m (Machine.catchException rt (.cancelled message) m) := by
  have hspec : (cancellationTarget rt true m.state m.state.handlers).2 <:+ m.state.handlers ∧ _ :=
    cancellationTarget_spec
  have hcleanup : ∀ h, (cancellationTarget rt true m.state m.state.handlers).1 = some h →
      isCleanup rt h = true := fun h => cancellationTarget_cleanup
  generalize htarget : cancellationTarget rt true m.state m.state.handlers = target at hspec hcleanup
  obtain ⟨target, handlers⟩ := target
  have hdispatch : (handleException rt (.cancelled message)).runFrom m.state =
      (match target with
        | none => return false
        | some h => do
          resumeAtHandler rt h (if isCleanup rt h then rt.none else rt.ofString message)
          shieldCleanup rt h
          return true : Exec V N W Bool).runFrom { m.state with handlers } := by
    simp only [handleException, handleCancellation, runFrom_bind, runFrom_get, runFrom_set, hcancelled,
      htarget]
    cases target <;> rfl
  unfold Machine.catchException
  rw [hdispatch]
  cases target with
  | none => exact .leaves rfl
  | some h =>
    obtain ⟨hsuffix, hbase, q, hresumable⟩ := hspec.2 h rfl
    have hspace : h.stackDepth < maxStack := hroom h (hsuffix.subset List.mem_cons_self)
    have hdropped : ResumableAt rt (m.state.control.withHandlers handlers) h q := { hresumable with }
    dsimp only
    generalize (if isCleanup rt h then rt.none else rt.ofString message) = errorValue
    have hcatch : Triple (Has (m.state.control.withHandlers handlers)) _ _ _ :=
      catch_has errorValue hdropped hspace
    have hend := hcatch { m.state with handlers } rfl
    have hpreserves : Preserves (· = m.state.world)
        (do resumeAtHandler rt h errorValue; shieldCleanup rt h; return true : Exec V N W Bool) :=
      catch_preserves
    have hworld := hpreserves { m.state with handlers } rfl
    cases hrun : (do resumeAtHandler rt h errorValue; shieldCleanup rt h; return true :
        Exec V N W Bool).runFrom { m.state with handlers } with
    | mk result state =>
      rw [hrun] at hend hworld
      cases result with
      | ok caught =>
        obtain ⟨rfl, hcontrol⟩ := hend
        refine .cleans (hcleanup h rfl) ?_ hworld
        rw [show state.control = _ from hcontrol]
        exact .resumes hsuffix hbase hresumable hspace
      | error => exact hend.elim

/-! ## Slots -/

/-- The functions of the frames and where their slots start, the outermost frame first. -/
def Control.slots (c : Control) : List (FunctionId × Nat) :=
  c.frames.reverse.map fun p => (p.function, p.slotOffset)

@[simp] theorem Control.length_slots : c.slots.length = c.frames.length := by
  simp [Control.slots]

@[simp] theorem Control.slots_moveTo {ip : Nat} : (c.moveTo ip).slots = c.slots := by
  cases c with
  | mk frames => cases frames <;> simp [Control.moveTo, Control.slots]

@[simp] theorem Control.slots_enter {id : FunctionId} {base arity : Nat} :
    (c.enter id base arity).slots = c.slots ++ [(id, base)] := by
  simp [Control.enter, Control.slots]

theorem Control.slots_of_frames (hframes : c.frames = p :: rest) :
    c.slots = rest.reverse.map (fun q => (q.function, q.slotOffset)) ++ [(p.function, p.slotOffset)] := by
  simp [Control.slots, hframes]

theorem Control.slots_drop {count : Nat} (hcount : count ≤ c.frames.length) (frames : List FramePosition)
    (hframes : frames = c.frames.drop (c.frames.length - count)) :
    (frames.reverse.map fun q => (q.function, q.slotOffset)) = c.slots.take count := by
  rw [hframes, List.reverse_drop, Control.slots, List.map_take]
  congr 1
  omega

theorem Control.slots_rest (hframes : c.frames = p :: rest) :
    (rest.reverse.map fun q => (q.function, q.slotOffset)) = c.slots.take rest.length :=
  Control.slots_drop (by simp [hframes]) rest (by simp [hframes])

/-- The frame of the body and its error value are there, nothing above them reaches below. -/
structure Cleanup.Above (body : Cleanup) (floor : Nat) (c : Control) : Prop where
  deep : body.frameIndex ≤ floor
  live : floor < c.frames.length
  frame : ∃ base, c.slots[body.frameIndex]? = some (body.function, base)
  callers : ∀ i id base, body.frameIndex < i → c.slots[i]? = some (id, base) → body.stackDepth < base
  height : body.stackDepth < c.height
  handlers : ∀ h ∈ c.handlers, body.frameIndex < h.frameIndex → body.stackDepth < h.stackDepth

namespace Cleanup.Above

variable {floor : Nat}

/-- Moving inside the current frame. -/
theorem stays (h : body.Above floor c) (hframes : c'.frames.length = c.frames.length)
    (hslots : c'.slots = c.slots) (hheight : body.stackDepth < c'.height)
    (hhandlers : ∀ g ∈ c'.handlers, body.frameIndex < g.frameIndex → body.stackDepth < g.stackDepth) :
    body.Above floor c' where
  deep := h.deep
  live := hframes ▸ h.live
  frame := hslots ▸ h.frame
  callers := hslots ▸ h.callers
  height := hheight
  handlers := hhandlers

/-- Entering a function above the error value, in place of the frames from `count` on. -/
theorem enters {floor' count base : Nat} {id : FunctionId} (h : body.Above floor c)
    (hdeep : body.frameIndex ≤ floor') (hlive : floor' < count + 1) (hinside : body.frameIndex < count)
    (hcount : count ≤ c.frames.length) (hslots : c'.slots = c.slots.take count ++ [(id, base)])
    (hbase : body.stackDepth < base) (hheight : body.stackDepth < c'.height)
    (hhandlers : c'.handlers <:+ c.handlers) : body.Above floor' c' := by
  have hlength : (c.slots.take count).length = count := by
    rw [List.length_take, Control.length_slots]
    omega
  refine ⟨hdeep, ?_, ?_, fun i id' base' hi hslot => ?_, hheight, fun g hg => h.handlers g (hhandlers.subset hg)⟩
  · rw [← Control.length_slots, hslots, List.length_append, hlength]
    exact hlive
  · obtain ⟨base', hframe⟩ := h.frame
    refine ⟨base', ?_⟩
    rw [hslots, List.getElem?_append_left (by omega), List.getElem?_take_of_lt hinside, hframe]
  · rw [hslots] at hslot
    by_cases hlt : i < count
    · rw [List.getElem?_append_left (by omega), List.getElem?_take_of_lt hlt] at hslot
      exact h.callers i id' base' hi hslot
    · obtain ⟨hbound, -⟩ := List.getElem?_eq_some_iff.mp hslot
      rw [List.length_append, List.length_singleton, hlength] at hbound
      obtain rfl : i = (c.slots.take count).length := by omega
      rw [List.getElem?_concat_length] at hslot
      cases hslot
      exact hbase

/-- Leaving frames above the body. -/
theorem leaves {floor' count : Nat} (h : body.Above floor c) (hdeep : body.frameIndex ≤ floor')
    (hlive : floor' < count) (hcount : count ≤ c.frames.length) (hslots : c'.slots = c.slots.take count)
    (hheight : body.stackDepth < c'.height)
    (hhandlers : c'.handlers <:+ c.handlers) : body.Above floor' c' where
  deep := hdeep
  live := by
    rw [← Control.length_slots, hslots, List.length_take, Control.length_slots]
    omega
  frame := by
    obtain ⟨base, hframe⟩ := h.frame
    exact ⟨base, by rw [hslots, List.getElem?_take_of_lt (by omega), hframe]⟩
  callers := by
    intro i id base hi hslot
    rw [hslots, List.getElem?_take] at hslot
    split at hslot
    · exact h.callers i id base hi hslot
    · cases hslot
  height := hheight
  handlers := fun g hg => h.handlers g (hhandlers.subset hg)

end Cleanup.Above

/-! ## One instruction inside a body -/

theorem flowEdges_height {op : Op} {code : Bytes} {offset height target height' : Nat}
    (hedge : (target, height') ∈ flowEdges op code offset height) :
    height - (runEffectOf op code offset).pops ≤ height' := by
  have hmissing : BytecodeVerifier.valuesMissingWhenExhausted op ≤ (runEffectOf op code offset).pushes := by
    cases op <;> simp [BytecodeVerifier.valuesMissingWhenExhausted, runEffectOf, BytecodeVerifier.stackEffectOf]
  unfold flowEdges at hedge
  split at hedge <;> grind

/-- What the instruction at the current position may not do inside the body. -/
structure Cleanup.Allows (rt : Runtime V N W) (body : Cleanup) (p : FramePosition)
    (rest : List FramePosition) (c : Control) : Prop where
  instruction : ∀ op, Op.ofByte (byteAt (rt.function p.function).chunk.code p.ip) = some op →
    op ≠ .endModule ∧
      (rest.length = body.frameIndex → op ≠ .return_ ∧ op ≠ .getLocalReturn ∧ op ≠ .tailCall) ∧
      body.stackDepth + (runEffectOf op (rt.function p.function).chunk.code p.ip).pops < c.height

/-- Raising an error installs no handler. -/
theorem Dispatches.raised_handlers (h : Dispatches rt p rest c .raised c') :
    c'.handlers <:+ c.handlers := by
  cases h with
  | fails => exact List.suffix_refl _
  | executes hop hexecutes =>
    cases hexecutes with
    | returns => exact discardFrom_suffix
    | _ => exact List.suffix_refl _

namespace Cleanup.Above

variable {floor : Nat}

/-- The slots of the current frame lie above the error value, unless the frame is the body's. -/
theorem slotOffset (h : body.Above floor c) (hframes : c.frames = p :: rest)
    (hinner : body.frameIndex < rest.length) : body.stackDepth < p.slotOffset := by
  refine h.callers rest.length p.function p.slotOffset hinner ?_
  have hlength : (rest.reverse.map fun q => (q.function, q.slotOffset)).length = rest.length := by simp
  rw [Control.slots_of_frames hframes, ← hlength, List.getElem?_concat_length]

theorem inner (h : body.Above floor c) (hframes : c.frames = p :: rest)
    (hother : rest.length ≠ body.frameIndex) : body.frameIndex < rest.length := by
  have hlive := h.live
  have hdeep := h.deep
  rw [hframes, List.length_cons] at hlive
  omega

theorem returned {floor' height : Nat} {handlers : List ExceptionHandler} (h : body.Above floor c)
    (hframes : c.frames = p :: rest) (hdeep : body.frameIndex ≤ floor') (hlive : floor' < rest.length)
    (hheight : body.stackDepth < height) (hhandlers : handlers <:+ c.handlers) :
    body.Above floor' { c with frames := rest, height, handlers } := by
  refine h.leaves hdeep hlive ?_ ?_ hheight hhandlers
  · simp [hframes]
  · exact Control.slots_rest hframes

/-- A function whose slots start at `base` is called. -/
theorem calls {floor' base arity ip : Nat} {id : FunctionId} (h : body.Above floor c)
    (hdeep : body.frameIndex ≤ floor') (hlive : floor' ≤ c.frames.length) (hbase : body.stackDepth < base) :
    body.Above floor' ((c.moveTo ip).enter id base arity) := by
  have hslots : ((c.moveTo ip).enter id base arity).slots = c.slots.take c.frames.length ++ [(id, base)] := by
    rw [Control.slots_enter, Control.slots_moveTo, List.take_of_length_le Control.length_slots.le]
  refine h.enters hdeep (Nat.lt_succ_of_le hlive) (h.deep.trans_lt h.live) le_rfl hslots hbase ?_
    (List.suffix_refl c.handlers)
  simp only [Control.enter]
  omega

/-- Where the instruction goes, unless the activation ends. -/
theorem executes {op : Op} {e : Ending} (h : body.Above floor c) (hframes : c.frames = p :: rest)
    (hfloor : floor = body.frameIndex ∨ floor = c.baseDepth) (hallows : body.Allows rt p rest c)
    (hop : Op.ofByte (byteAt (rt.function p.function).chunk.code p.ip) = some op)
    (hexecutes : Executes rt op p.ip p rest c e c') (hfault : e ≠ .fault) (hreturned : e ≠ .returned) :
    body.Above floor c' := by
  obtain ⟨hmodule, hown, hpops⟩ := hallows.instruction op hop
  have hlive := h.live
  rw [hframes, List.length_cons] at hlive
  have hdeep := h.deep
  cases hexecutes with
  | flows hedge =>
    refine h.stays length_moveTo Control.slots_moveTo ?_ h.handlers
    have := flowEdges_height hedge
    simp only [Control.height_withHeight]
    omega
  | installs =>
    refine h.stays length_moveTo Control.slots_moveTo h.height fun g hg => ?_
    obtain rfl | hg := List.mem_cons.mp hg
    · exact fun _ => h.height
    · exact h.handlers g hg
  | removes hremoved hhandlers =>
    refine h.stays length_moveTo Control.slots_moveTo h.height fun g hg => h.handlers g ?_
    rw [hhandlers]
    exact List.mem_cons_of_mem _ hg
  | opensScope => exact h.stays length_moveTo Control.slots_moveTo h.height h.handlers
  | closesScope hclosed hopen hend =>
    refine h.stays length_moveTo Control.slots_moveTo ?_ h.handlers
    have hheight := h.height
    simp only [Control.height_withHeight]
    omega
  | calls hcall hpopped hheight =>
    subst hpopped
    exact h.calls hdeep h.live.le (by omega)
  | callsNative hcall hpopped hheight =>
    subst hpopped
    refine h.stays length_moveTo Control.slots_moveTo ?_ h.handlers
    simp only [Control.height_withHeight]
    omega
  | @tailCalls id htail =>
    have hinner := h.inner hframes fun hbody => (hown hbody).2.2 htail
    have hslots : ({ c.discardFrom rest.length with
        frames := ⟨id, 0, p.slotOffset⟩ :: rest
        height := p.slotOffset + 1 + (rt.function id).arity } : Control).slots =
        c.slots.take rest.length ++ [(id, p.slotOffset)] := by
      rw [Control.slots_of_frames rfl, Control.slots_rest hframes]
    have hslot := h.slotOffset hframes hinner
    refine h.enters hdeep hlive hinner (by simp [hframes]) hslots hslot ?_ discardFrom_suffix
    simp only
    omega
  | returns hreturn hend =>
    have hinner := h.inner hframes fun hbody => by
      obtain ⟨hne, hne', -⟩ := hown hbody
      exact hreturn.elim hne hne'
    have hslot := h.slotOffset hframes hinner
    refine h.returned hframes hdeep ?_ ?_ discardFrom_suffix
    · obtain rfl | rfl := hfloor
      · exact hinner
      · obtain ⟨-, hbase, -⟩ | ⟨-, hbase, -⟩ | ⟨rfl, -⟩ := hend
        · exact hbase
        · exact hbase
        · exact absurd rfl hreturned
    · omega
  | ends hend => exact absurd hend hmodule
  | raises hheight =>
    refine h.stays length_moveTo Control.slots_moveTo ?_ h.handlers
    simp only [Control.height_withHeight]
    omega
  | overruns => exact absurd rfl hfault

theorem dispatches {e : Ending} (h : body.Above floor c) (hframes : c.frames = p :: rest)
    (hfloor : floor = body.frameIndex ∨ floor = c.baseDepth) (hallows : body.Allows rt p rest c)
    (hdispatches : Dispatches rt p rest c e c') (hfault : e ≠ .fault) (hreturned : e ≠ .returned) :
    body.Above floor c' := by
  cases hdispatches with
  | executes hop hexecutes =>
    exact h.executes hframes hfloor hallows hop hexecutes hfault hreturned
  | fails => exact h.stays length_moveTo Control.slots_moveTo h.height h.handlers

/-- An activation that ends is one of a callback. -/
theorem ends (h : body.Above floor c) (hframes : c.frames = p :: rest)
    (hfloor : floor = body.frameIndex ∧ c.baseDepth ≤ floor ∨ floor = c.baseDepth)
    (hallows : body.Allows rt p rest c) (hdispatches : Dispatches rt p rest c .returned c') :
    body.frameIndex < floor ∧ ∀ floor' < floor, body.frameIndex ≤ floor' → body.Above floor' c' := by
  have hlive := h.live
  rw [hframes, List.length_cons] at hlive
  have hdeep := h.deep
  cases hdispatches with
  | executes hop hexecutes =>
    obtain ⟨hmodule, hown, hpops⟩ := hallows.instruction _ hop
    cases hexecutes with
    | closesScope _ _ hend => obtain ⟨hend, -⟩ | ⟨hend, -⟩ := hend <;> cases hend
    | ends hend => exact absurd hend hmodule
    | @returns e height hreturn hend =>
      obtain ⟨hend, -⟩ | ⟨hend, -⟩ | ⟨-, hbase, hheight⟩ := hend
      · cases hend
      · cases hend
      have hinner := h.inner hframes fun hbody => by
        obtain ⟨hne, hne', -⟩ := hown hbody
        exact hreturn.elim hne hne'
      have hslot := h.slotOffset hframes hinner
      refine ⟨by omega, fun floor' hlt hle => ?_⟩
      exact h.returned hframes hle (by omega) (hheight ▸ hslot) discardFrom_suffix

/-- Resuming at a handler inside. -/
theorem resumes {h : ExceptionHandler} {q : FramePosition} {handlers : List ExceptionHandler}
    (habove : body.Above floor c) (hhandlers : h :: handlers <:+ c.handlers)
    (hresumable : ResumableAt rt c h q) (hfloor : floor ≤ h.frameIndex)
    (hdepth : body.stackDepth < h.stackDepth) :
    body.Above floor ((c.withHandlers handlers).resume h q) := by
  obtain ⟨hlt, hq⟩ := List.getElem?_eq_some_iff.mp hresumable.frame
  rw [List.length_reverse] at hlt
  have hslots : ((c.withHandlers handlers).resume h q).slots = c.slots.take (h.frameIndex + 1) := by
    have hdrop := drop_of_reverse_getElem? hresumable.frame
    rw [Control.slots_of_frames rfl]
    simp only [Control.withHandlers]
    rw [← Control.slots_drop (c := c) hlt _ rfl, hdrop]
    simp
  refine habove.leaves habove.deep (Nat.lt_succ_of_le hfloor) hlt hslots ?_
    ((List.suffix_cons h handlers).trans hhandlers)
  exact hdepth.trans (Nat.lt_succ_self _)

/-- An exception that an activation of a callback catches or that leaves it. -/
theorem unwinds {caught : Option ExceptionHandler} (h : body.Above floor c)
    (hfloor : floor = c.baseDepth) (hinner : body.frameIndex < floor) (hunwinds : Unwinds rt c caught c') :
    body.Above floor c' := by
  cases hunwinds with
  | @resumes g q handlers hhandlers hbase hresumable _ =>
    refine h.resumes hhandlers hresumable (hfloor ▸ hbase) ?_
    exact h.handlers g (hhandlers.subset List.mem_cons_self) (by omega)
  | @overflows g q handlers hhandlers hbase hresumable _ =>
    obtain ⟨hlt, -⟩ := List.getElem?_eq_some_iff.mp hresumable.frame
    rw [List.length_reverse] at hlt
    refine h.leaves h.deep (Nat.lt_succ_of_le (hfloor ▸ hbase)) hlt (Control.slots_drop hlt _ rfl) ?_
      ((List.suffix_cons g handlers).trans hhandlers)
    exact h.handlers g (hhandlers.subset List.mem_cons_self) (by omega)
  | leaves hhandlers => exact h.stays rfl rfl h.height fun g hg => h.handlers g (hhandlers.subset hg)

theorem cleanUp {floor' savedStackSize previousBase : Nat} (h : body.Above floor c)
    (hfloor : floor = c.baseDepth) (hlt : floor' < floor) (hdeep : body.frameIndex ≤ floor')
    (hsaved : body.stackDepth < savedStackSize) :
    body.Above floor' (c.cleanUp savedStackSize previousBase) := by
  have hlive := h.live
  refine h.leaves hdeep (hfloor ▸ hlt) (by omega) (Control.slots_drop (by omega) _ rfl) hsaved
    discardFrom_suffix

end Cleanup.Above

/-! ## One step inside a body -/

/-- What is kept while a body is executed. -/
structure Cleanup.Held (body : Cleanup) (m : Machine V N W) : Prop where
  active : m.mode = .running ∨ ∃ action, m.mode = .native action
  inside : ∃ floor, body.Inside m.activations m.state.baseDepth floor ∧ body.Above floor m.state.control

theorem Cleanup.Held.contains {m : Machine V N W} (h : body.Held m) : body.Contains m := by
  obtain ⟨floor, hinside, habove⟩ := h.inside
  refine ⟨h.active, ?_, ⟨floor, hinside, ?_⟩, habove.height⟩
  · obtain ⟨base, hframe⟩ := habove.frame
    simp only [Control.slots, State.control, ← List.map_reverse, List.map_map, List.getElem?_map,
      Option.map_eq_some_iff] at hframe
    obtain ⟨cf, hcf, hpair⟩ := hframe
    exact ⟨cf, hcf, congrArg Prod.fst hpair⟩
  · simpa [State.control] using habove.live

namespace Cleanup.Inside

variable {activations : List (Activation N)} {baseDepth floor : Nat}

theorem cases_floor (h : body.Inside activations baseDepth floor) :
    activations.length = body.nativeCalls ∧ floor = body.frameIndex ∧ baseDepth ≤ floor ∨
      body.nativeCalls < activations.length ∧ floor = baseDepth ∧ body.frameIndex < floor := by
  induction h with
  | here hcalls hbase => exact .inl ⟨hcalls, rfl, hbase⟩
  | callback h hbase hsaved ih =>
    right
    obtain ⟨hcalls, rfl, -⟩ | ⟨hcalls, -, hlt⟩ := ih
    · exact ⟨by simp [hcalls], rfl, hbase⟩
    · exact ⟨hcalls.trans (Nat.lt_succ_self _), rfl, hlt.trans hbase⟩

/-- The activation that an inner one suspends. -/
theorem outer {a : Activation N} (h : body.Inside (a :: activations) baseDepth floor)
    (hinner : body.nativeCalls < (a :: activations).length) :
    ∃ floor', body.Inside activations a.previousBase floor' ∧ floor' < floor ∧
      body.frameIndex ≤ floor' ∧ body.stackDepth < a.savedStackSize := by
  cases h with
  | here hcalls => omega
  | @callback _ _ _ floor' h hbase hsaved =>
    refine ⟨floor', h, hbase, ?_, hsaved⟩
    obtain ⟨-, rfl, -⟩ | ⟨-, -, hlt⟩ := h.cases_floor
    · exact le_rfl
    · exact hlt.le

end Cleanup.Inside

theorem Cleanup.Held.leaveRun {m : Machine V N W} {e : Raised V} {floor : Nat}
    (hinside : body.Inside m.activations m.state.baseDepth floor)
    (hinner : body.nativeCalls < m.activations.length) (habove : body.Above floor m.state.control) :
    body.Held (Machine.leaveRun rt e m) := by
  obtain ⟨state, activations, scopeBase, mode⟩ := m
  cases activations with
  | nil => exact absurd hinner (Nat.not_lt_zero _)
  | cons a activations =>
    obtain ⟨floor', houter, hlt, hdeep, hsaved⟩ := hinside.outer hinner
    obtain ⟨hcalls, -, -⟩ | ⟨-, hfloor, -⟩ := hinside.cases_floor
    · exact absurd hinner hcalls.not_gt
    refine ⟨.inr ⟨_, rfl⟩, floor', houter, ?_⟩
    change body.Above floor' (Machine.cleanUpCall rt a.savedStackSize a.previousBase state).control
    rw [cleanUpCall_control]
    exact habove.cleanUp hfloor hlt hdeep hsaved

/-- An error is dispatched to the innermost handler. -/
theorem catchException_recovers {m : Machine V N W} {message : ErrorMessage} {payload : Option V}
    {h : ExceptionHandler} {handlers : List ExceptionHandler} (hhandlers : m.state.handlers = h :: handlers)
    (hbase : m.state.baseDepth ≤ h.frameIndex) (hvalid : isValidHandler rt m.state h = true)
    (hspace : h.stackDepth < maxStack) :
    ∃ q state, ResumableAt rt m.state.control h q ∧
      state.control = (m.state.control.withHandlers handlers).resume h q ∧
      Machine.catchException rt (.error message payload) m = { m with state, mode := .running } := by
  obtain ⟨q, hresumable⟩ := isValidHandler_resumable hvalid
  have hdropped : ResumableAt rt (m.state.control.withHandlers handlers) h q := { hresumable with }
  have hhas : hasHandlerFor m.state = true := by simp [hasHandlerFor, hhandlers, hbase]
  generalize hvalue : payload.elim (rt.ofString message) rt.toStringValue = errorValue
  have hdispatch : (handleException rt (.error message payload)).runFrom m.state =
      (do resumeAtHandler rt h errorValue; shieldCleanup rt h; return true :
        Exec V N W Bool).runFrom { m.state with handlers } := by
    subst hvalue
    cases payload <;>
      simp only [handleException, handleError, runFrom_bind, runFrom_get, hhas, Bool.not_true,
        Bool.false_eq_true, if_false, hhandlers, runFrom_set, hvalid] <;>
      rfl
  have hcatch : Triple (Has (m.state.control.withHandlers handlers)) _ _ _ :=
    catch_has errorValue hdropped hspace
  have hend := hcatch { m.state with handlers } rfl
  unfold Machine.catchException
  rw [hdispatch]
  cases hrun : (do resumeAtHandler rt h errorValue; shieldCleanup rt h; return true :
      Exec V N W Bool).runFrom { m.state with handlers } with
  | mk result state =>
    rw [hrun] at hend
    cases result with
    | ok caught =>
      obtain ⟨rfl, hcontrol⟩ := hend
      exact ⟨q, state, hresumable, hcontrol, rfl⟩
    | error => exact hend.elim

/-- An exception of the activation that executes the body is caught inside; one of a callback
    ends inside whatever it is. -/
theorem Cleanup.Held.catches {m : Machine V N W} {e : Raised V} {floor : Nat}
    (hinside : body.Inside m.activations m.state.baseDepth floor)
    (habove : body.Above floor m.state.control)
    (hrecovers : m.activations.length = body.nativeCalls → body.Recovers rt e m.state) :
    body.Held (Machine.catchException rt e m) := by
  obtain ⟨hcalls, rfl, hbase⟩ | ⟨hcalls, hfloor, hinner⟩ := hinside.cases_floor
  · obtain ⟨message, payload, h, handlers, rfl, hhandlers, hvalid, hspace, hplace⟩ := hrecovers hcalls
    have hindex : body.frameIndex ≤ h.frameIndex := by omega
    obtain ⟨q, state, hresumable, hcontrol, hcaught⟩ : ∃ q state, ResumableAt rt m.state.control h q ∧
        _ ∧ Machine.catchException rt (.error message payload) m = _ :=
      catchException_recovers hhandlers (hbase.trans hindex) hvalid hspace
    have hsuffix : h :: handlers <:+ m.state.control.handlers := hhandlers ▸ List.suffix_rfl
    have hdepth : body.stackDepth < h.stackDepth := by
      obtain hlt | ⟨-, hdepth⟩ := hplace
      · exact habove.handlers h (hsuffix.subset List.mem_cons_self) hlt
      · exact hdepth
    have hbase' : state.baseDepth = m.state.baseDepth := congrArg Control.baseDepth hcontrol
    rw [hcaught]
    refine ⟨.inl rfl, body.frameIndex, .here hcalls (hbase' ▸ hbase), ?_⟩
    change body.Above body.frameIndex state.control
    rw [hcontrol]
    exact habove.resumes hsuffix hresumable hindex hdepth
  · have hsettles : Settles rt m (Machine.catchException rt e m) := catchException_settles
    generalize Machine.catchException rt e m = caught at hsettles
    cases hsettles with
    | @resumes h state hunwinds =>
      have hbase' : state.baseDepth = m.state.baseDepth := hunwinds.baseDepth
      exact ⟨.inl rfl, floor, hbase' ▸ hinside, habove.unwinds hfloor hinner hunwinds⟩
    | @leaves e' state taskScopes hunwinds =>
      have hbase' : state.baseDepth = m.state.baseDepth := hunwinds.baseDepth
      have habove' := habove.unwinds hfloor hinner hunwinds
      exact Held.leaveRun (hbase' ▸ hinside) hcalls
        (habove'.stays rfl rfl habove'.height habove'.handlers)

theorem Cleanup.Keeps.allows {m : Machine V N W} (h : body.Keeps rt m) (hmode : m.mode = .running)
    (hframes : m.state.control.frames = p :: rest) : body.Allows rt p rest m.state.control := by
  obtain ⟨cf, frames, hcons, rfl, rfl⟩ := List.map_eq_cons_iff.mp hframes
  refine ⟨fun op hop => ?_⟩
  obtain ⟨hmodule, hown, hpops⟩ := h.instruction hmode cf frames op hcons hop
  refine ⟨hmodule, ?_, hpops⟩
  rw [List.length_map]
  exact hown

/-- A step that keeps to the body. -/
theorem Cleanup.Held.steps {m m' : Machine V N W} (h : body.Held m) (hkeeps : body.Keeps rt m)
    (hsteps : Steps rt m m') : body.Held m' := by
  obtain ⟨floor, hinside, habove⟩ := h.inside
  have hfloor : floor = body.frameIndex ∨ floor = m.state.control.baseDepth := by
    obtain ⟨-, hfloor, -⟩ | ⟨-, hfloor, -⟩ := hinside.cases_floor
    · exact .inl hfloor
    · exact .inr hfloor
  cases hsteps with
  | @executes p rest state hmode hframes hdispatches =>
    have hbase : state.baseDepth = m.state.baseDepth := hdispatches.baseDepth nofun
    exact ⟨.inl hmode, floor, hbase ▸ hinside,
      habove.dispatches hframes hfloor (hkeeps.allows hmode hframes) hdispatches nofun nofun⟩
  | @fails p rest e state _ hmode hraises hframes hdispatches hcatch =>
    have hbase : state.baseDepth = m.state.baseDepth := hdispatches.baseDepth nofun
    rw [hcatch]
    exact Held.catches (hbase ▸ hinside)
      (habove.dispatches hframes hfloor (hkeeps.allows hmode hframes) hdispatches nofun nofun)
      fun hcalls => hkeeps.exceptions hcalls e state hraises
  | @returns p rest result state hmode hframes hdispatches =>
    have hcases := hinside.cases_floor
    obtain ⟨hinner, habove'⟩ := habove.ends hframes
      (hcases.imp (fun h => ⟨h.2.1, h.2.2⟩) fun h => h.2.1) (hkeeps.allows hmode hframes) hdispatches
    obtain ⟨-, hown, -⟩ | ⟨hcalls, -, -⟩ := hcases
    · exact absurd hown hinner.ne'
    obtain ⟨before, activations, scopeBase, mode⟩ := m
    cases activations with
    | nil => exact absurd hcalls (Nat.not_lt_zero _)
    | cons a activations =>
      obtain ⟨floor', houter, hlt, hdeep, -⟩ := hinside.outer hcalls
      have habove' := habove' floor' hlt hdeep
      exact ⟨.inr ⟨_, rfl⟩, floor', houter, habove'.stays rfl rfl habove'.height habove'.handlers⟩
  | @entersNative p rest state world action hmode hframes hdispatches =>
    have hbase : state.baseDepth = m.state.baseDepth := hdispatches.baseDepth nofun
    exact ⟨.inr ⟨_, rfl⟩, floor, hbase ▸ hinside,
      habove.dispatches hframes hfloor (hkeeps.allows hmode hframes) hdispatches nofun nofun⟩
  | faults hmode hrun => exact absurd hrun (hkeeps.safe hmode _)
  | @leavesNative state v hmode hcontrol =>
    have hbase : state.baseDepth = m.state.baseDepth := congrArg Control.baseDepth hcontrol
    refine ⟨.inl rfl, floor, hbase ▸ hinside, ?_⟩
    change body.Above floor state.control
    rw [hcontrol]
    exact habove.stays rfl rfl (habove.height.trans (Nat.lt_succ_self _)) habove.handlers
  | @failsNative e result state _ hmode hraises hcontrol hcatch =>
    have hbase : state.baseDepth = m.state.baseDepth := congrArg Control.baseDepth hcontrol
    rw [hcatch]
    refine Held.catches (hbase ▸ hinside) ?_ fun hcalls => hkeeps.exceptions hcalls e state hraises
    change body.Above floor state.control
    rw [hcontrol]
    exact habove
  | callsBack hmode hcalls =>
    cases hcalls with
    | @overflows e state height hheight hcontrol =>
      have hbase : state.baseDepth = m.state.baseDepth := congrArg Control.baseDepth hcontrol
      refine ⟨.inr ⟨_, rfl⟩, floor, hbase ▸ hinside, ?_⟩
      change body.Above floor state.control
      rw [hcontrol]
      exact habove.stays rfl rfl (habove.height.trans_le hheight) habove.handlers
    | @refused e state height hheight hcontrol =>
      refine ⟨.inr ⟨_, rfl⟩, floor, hinside, ?_⟩
      change body.Above floor
        (Machine.cleanUpCall rt m.state.stack.length m.state.baseDepth state).control
      rw [cleanUpCall_control, hcontrol]
      refine habove.stays ?_ ?_ habove.height fun g hg => habove.handlers g (discardFrom_suffix.subset hg)
      · simp [Control.cleanUp, Control.rebase, Control.withHeight]
      · simp [Control.cleanUp, Control.rebase, Control.withHeight, Control.slots]
    | @starts id state hcontrol =>
      have hbase : state.baseDepth = m.state.control.frames.length := congrArg Control.baseDepth hcontrol
      have hstarted : body.Above m.state.control.frames.length
          (m.state.control.rebase.enter id m.state.stack.length (rt.function id).arity) := by
        have hcalls : body.Above m.state.control.frames.length
            ((m.state.control.moveTo 0).enter id m.state.stack.length (rt.function id).arity) :=
          habove.calls (habove.deep.trans habove.live.le) le_rfl habove.height
        refine hcalls.stays ?_ ?_ hcalls.height hcalls.handlers
        · simp [Control.enter, Control.rebase, length_moveTo]
        · rw [Control.slots_enter, Control.slots_enter, Control.slots_moveTo]
          rfl
      refine ⟨.inl rfl, m.state.control.frames.length, ?_, ?_⟩
      · change body.Inside (_ :: m.activations) state.baseDepth _
        rw [hbase]
        exact .callback hinside habove.live habove.height
      · change body.Above _ state.control
        rw [hcontrol]
        exact hstarted
  | waits => exact h

/-! ## Stages -/

/-- What is kept at each stage. -/
def Stage.Kept (rt : Runtime V N W) (m : Machine V N W) : Stage → Prop
  | .told => ∃ action, m.mode = .native action
  | .cleaning body =>
    isCleanupHandler (rt.function body.function).chunk.code body.catchIp = true ∧ body.Held m
  | .ended => ∃ message, m.mode = .finished (.error (.cancelled message))

theorem Stage.Kept.holds {stage : Stage} {m : Machine V N W} (h : stage.Kept rt m) :
    stage.Holds rt m := by
  cases stage with
  | told => exact h
  | cleaning body => exact ⟨h.1, h.2.contains⟩
  | ended => exact h

theorem Stage.Kept.unfaulted {stage : Stage} {m : Machine V N W} (h : stage.Kept rt m) :
    m.mode ≠ .faulted := by
  intro hfaulted
  cases stage with
  | told =>
    obtain ⟨action, hmode⟩ := h
    cases hmode.symm.trans hfaulted
  | cleaning body =>
    obtain hmode | ⟨action, hmode⟩ := h.2.active <;> cases hmode.symm.trans hfaulted
  | ended =>
    obtain ⟨message, hmode⟩ := h
    cases hmode.symm.trans hfaulted

/-- A cancellation that leaves the activation is told to native code, or ends the run. -/
theorem leaveRun_kept {m : Machine V N W} {message : ErrorMessage} :
    (Stage.of (Machine.leaveRun rt (.cancelled message) m)).Kept rt
      (Machine.leaveRun rt (.cancelled message) m) := by
  unfold Machine.leaveRun
  split
  · exact ⟨message, rfl⟩
  · exact ⟨_, rfl⟩

theorem Relayed.kept {m m' : Machine V N W} {message : ErrorMessage} (h : Relayed rt message m m')
    (hnested : Nested m.state.control) : (Stage.of m').Kept rt m' := by
  cases h with
  | leaves => exact leaveRun_kept
  | @cleans h state hcleanup hunwinds =>
    generalize hcontrol : state.control = c at hunwinds
    cases hunwinds with
    | @resumes _ q handlers hhandlers hbase hresumable _ =>
      obtain ⟨hlt, -⟩ := List.getElem?_eq_some_iff.mp hresumable.frame
      rw [List.length_reverse] at hlt
      have hframes : state.frames.map CallFrame.position = _ := congrArg Control.frames hcontrol
      obtain ⟨cf, frames, hcons, hposition, hrest⟩ := List.map_eq_cons_iff.mp hframes
      have hfunction : cf.function = q.function := congrArg FramePosition.function hposition
      have hip : cf.ip = h.catchIp := congrArg FramePosition.ip hposition
      have hindex : frames.length = h.frameIndex := by
        have hlength := congrArg List.length hrest
        simp only [List.length_map, Control.withHandlers, List.length_drop] at hlength
        omega
      have hheight : state.stack.length = h.stackDepth + 1 := congrArg Control.height hcontrol
      have hstage : Stage.of ({ m with state, mode := .running } : Machine V N W) = .cleaning
          { function := q.function
            catchIp := h.catchIp
            frameIndex := h.frameIndex
            stackDepth := h.stackDepth
            nativeCalls := m.activations.length } := by
        simp [Stage.of, hcons, hfunction, hip, hindex, hheight]
      have hbase' : state.baseDepth = m.state.baseDepth := congrArg Control.baseDepth hcontrol
      rw [hstage]
      refine ⟨?_, .inl rfl, h.frameIndex, .here rfl (hbase' ▸ hbase), ?_⟩
      · rw [← hresumable.function]
        exact hcleanup
      change Cleanup.Above _ h.frameIndex state.control
      rw [hcontrol]
      have hslots : ((m.state.control.withHandlers handlers).resume h q).slots =
          ((m.state.control.frames.drop (m.state.control.frames.length - h.frameIndex)).reverse.map
            fun q => (q.function, q.slotOffset)) ++ [(q.function, q.slotOffset)] := by
        rw [Control.slots_of_frames rfl]
        rfl
      have hlength : (((m.state.control.frames.drop
          (m.state.control.frames.length - h.frameIndex)).reverse.map
            fun q => (q.function, q.slotOffset))).length = h.frameIndex := by
        simp only [List.length_map, List.length_reverse, List.length_drop]
        omega
      have htop : ((m.state.control.withHandlers handlers).resume h q).slots[h.frameIndex]? =
          some (q.function, q.slotOffset) := by
        rw [hslots, List.getElem?_append_right hlength.le, hlength, Nat.sub_self]
        rfl
      refine ⟨le_rfl, ?_, ⟨q.slotOffset, ?_⟩, fun i id base hi hslot => ?_, Nat.lt_succ_self _,
        fun g hg hi => ?_⟩
      · rw [← Control.length_slots, hslots, List.length_append, hlength]
        exact Nat.lt_succ_self _
      · exact htop
      · obtain ⟨hbound, -⟩ := List.getElem?_eq_some_iff.mp hslot
        rw [hslots, List.length_append, hlength, List.length_singleton] at hbound
        exact absurd hi (by simp only; omega)
      · exact absurd (hnested.below hhandlers g hg) (Nat.not_le.mpr hi)

/-! ## Cancellation points -/

/-- What is known where an exception was raised. -/
theorem Raises.spec {P : W → Prop} {m : Machine V N W} {e : Raised V} {s : State V W}
    (h : Raises rt m e s) (horderly : Orderly m) (hrt : Lasting rt P) :
    Nested s.control ∧ (HasRoom m.state → HasRoom s) ∧ (P m.state.world → P s.world) := by
  cases h with
  | @instruction e s hmode hrun =>
    have hlive := horderly.live fun result hfinished => nomatch hmode.symm.trans hfinished
    obtain ⟨p, rest, hframes⟩ : ∃ p rest, m.state.control.frames = p :: rest :=
      List.exists_cons_of_length_pos (Nat.zero_lt_of_lt hlive)
    have hdispatches : Triple (Has m.state.control) (dispatch rt) _ _ := dispatch_dispatches hframes
    have hend := hdispatches { m.state with world := rt.environment m.state.world } rfl
    have hworld := dispatch_preserves hrt { m.state with world := rt.environment m.state.world }
    rw [hrun] at hend hworld
    have hraised : Dispatches rt p rest m.state.control .raised s.control := hend
    refine ⟨hraised.nested hframes horderly.nested nofun, fun hroom g hg => hroom g ?_,
      fun hP => hworld (hrt.environment _ hP)⟩
    exact hraised.raised_handlers.subset hg
  | native => exact ⟨horderly.nested, id, id⟩
  | @overflow v e s hmode hrun =>
    have hend := push_has (N := N) (c := m.state.control) (v := v) m.state rfl
    have hworld := push_preserves (N := N) (P := P) (v := v) m.state
    rw [hrun] at hend hworld
    have hcontrol : s.control = m.state.control := hend.2.2
    refine ⟨hcontrol ▸ horderly.nested, fun hroom g hg => hroom g ?_, hworld⟩
    rwa [show s.handlers = m.state.handlers from congrArg Control.handlers hcontrol] at hg

theorem Raises.kept {m : Machine V N W} {message : ErrorMessage} {s : State V W}
    (h : Raises rt m (.cancelled message) s) (horderly : Orderly m) (hroom : HasRoom m.state)
    (hcancelled : rt.isCancelled s.world = true) :
    (Stage.of (Machine.step rt m)).Kept rt (Machine.step rt m) := by
  have hrt : Lasting rt fun _ => True := ⟨by simp, by simp, by simp, by simp, by simp, by simp⟩
  obtain ⟨hnested, hspace, -⟩ := h.spec horderly hrt
  rw [h.step]
  have hrelayed : Relayed rt message { m with state := s } _ :=
    catchException_relayed hcancelled (hspace hroom)
  exact hrelayed.kept hnested

/-- The Rethrow at the end of a body that a cancellation entered raises it again. -/
theorem Cleanup.Ends.raises {m : Machine V N W} {message : ErrorMessage}
    (hmarker : rt.rethrown rt.none = .cancelled message) (h : body.Ends rt m) :
    ∃ s, Raises rt m (.cancelled message) s := by
  obtain ⟨hmode, -, cf, frames, stack, hframes, -, hstack, -, hip, hop⟩ := h
  have hbyte : (rt.function cf.function).chunk.code[cf.ip]? =
      some (byteAt (rt.function cf.function).chunk.code cf.ip) := by
    rw [byteAt, List.getD_eq_getElem?_getD, List.getElem?_eq_getElem hip]
    rfl
  generalize hs : ({ m.state with world := rt.environment m.state.world } : State V W) = s
  have hsframes : s.frames = cf :: frames := by
    rw [← hs]
    exact hframes
  have hsstack : s.stack = rt.none :: stack := by
    rw [← hs]
    exact hstack
  have havailable : (ensureBytecodeAvailable rt 1).runFrom s = (.ok (), s) := by
    have hfits : ¬ (rt.function cf.function).chunk.code.length < cf.ip + 1 := by omega
    simp only [ensureBytecodeAvailable, currentFrame, runFrom_bind, runFrom_get, runFrom_pure, hsframes,
      if_neg hfits]
  have hnext : (nextByte rt).runFrom s = (.ok (byteAt (rt.function cf.function).chunk.code cf.ip).toNat,
      { s with frames := { cf with ip := cf.ip + 1 } :: frames }) := by
    simp [nextByte, currentFrame, setIp, runFrom_bind, runFrom_map, hsframes, hbyte]
  have hrethrow : ((handleRethrow rt).runFrom
      { s with frames := { cf with ip := cf.ip + 1 } :: frames }).1 =
        .error (.raised (.cancelled message)) := by
    simp [handleRethrow, pop, runFrom_bind, hsstack, hmarker, raise]
  have hrun : ((dispatch rt).runFrom s).1 = .error (.raised (.cancelled message)) := by
    rw [dispatch, runFrom_bind, havailable]
    dsimp only
    rw [runFrom_bind, hnext]
    dsimp only
    rw [UInt8.ofNat_toNat, hop]
    exact hrethrow
  subst s
  exact ⟨_, .instruction hmode (Prod.ext hrun rfl)⟩

theorem push_shields {v : V} {s : State V W} :
    ((push v : Exec V N W Unit).runFrom s).2.shields = s.shields := by
  simp only [push, runFrom_bind, runFrom_get]
  split <;> rfl

theorem pushAll_shields : ∀ {vs : List V} {s : State V W},
    ((pushAll vs : Exec V N W Unit).runFrom s).2.shields = s.shields
  | [], _ => rfl
  | v :: vs, s => by
    have hpush := push_shields (N := N) (v := v) (s := s)
    simp only [pushAll, runFrom_bind]
    cases hrun : (push v : Exec V N W Unit).runFrom s with
    | mk result state =>
      rw [hrun] at hpush
      cases result with
      | ok => exact pushAll_shields.trans hpush
      | error => exact hpush

/-- A call of a cancelled task that is not shielded raises something before a frame is pushed. -/
theorem callValue_refused {callee : V} {argCount : Nat} {s : State V W}
    (hcancelled : rt.isCancelled s.world = true) (hshields : s.shields = [])
    (hnative : ∀ start, rt.callee callee ≠ .native start) :
    ∃ e state, (callValue rt callee argCount).runFrom s = (.error (.raised e), state) := by
  unfold callValue
  split
  · by_cases hdepth : rt.limits.maxCallDepth ≤ s.frames.length
    · refine ⟨.error s!"call stack overflow: maximum recursion depth ({rt.limits.maxCallDepth}) exceeded"
        none, s, ?_⟩
      simp [callFunction, validateCallDepth, runFrom_bind, hdepth, runtimeError, raise]
    · refine ⟨.cancelled "task cancelled", s, ?_⟩
      simp [callFunction, validateCallDepth, runFrom_bind, hdepth, checkCancellation, hcancelled, hshields,
        raise]
  next start hcallee => exact absurd hcallee (hnative start)
  · exact ⟨_, _, rfl⟩

/-- A cancelled task that is not shielded starts no callback. -/
theorem callBack_refused {m : Machine V N W} {callee : V} {args : List V} {next : N}
    (hcancelled : rt.isCancelled m.state.world = true) (hshields : m.state.shields = [])
    (hnative : ∀ start, rt.callee callee ≠ .native start)
    (hframes : m.state.control.frames ≠ []) :
    ∃ action, (Machine.callBack rt callee args next m).mode = .native action := by
  generalize hargs : Machine.callbackArguments rt callee args = passed
  have hpushes : Moves 0 (passed.length + 1) (do push callee; pushAll passed : Exec V N W Unit) :=
    (push_moves.bind fun _ => pushAll_moves passed).cast (by omega) (by omega)
  have hpushed := hpushes m.state.control hframes m.state rfl
  have hworld : Preserves (rt.isCancelled · = true) (do push callee; pushAll passed : Exec V N W Unit) :=
    push_preserves.bind fun _ => pushAll_preserves passed
  have hkept := hworld m.state hcancelled
  have hopen : ((pushAll (callee :: passed) : Exec V N W Unit).runFrom m.state).2.shields =
      m.state.shields := pushAll_shields
  simp only [Machine.callBack, hargs]
  cases hrun : (do push callee; pushAll passed : Exec V N W Unit).runFrom m.state with
  | mk result state =>
    rw [hrun] at hpushed hkept
    rw [pushAll, hrun] at hopen
    cases result with
    | error e =>
      cases e <;> try exact hpushed.elim
      exact ⟨_, rfl⟩
    | ok =>
      obtain ⟨e, state', hrun'⟩ : ∃ e state', (callValue rt callee passed.length).runFrom
          { state with baseDepth := state.frames.length } = (.error (.raised e), state') :=
        callValue_refused hkept (hopen.trans hshields) hnative
      dsimp only
      rw [hrun']
      exact ⟨_, rfl⟩

/-! ## Cancellations are not swallowed -/

theorem Unwinding.reachable {first m : Machine V N W} {stage : Stage}
    (h : Unwinding rt first stage m) : Machine.Reachable rt first m := by
  induction h with
  | thrown hreach => exact .step hreach
  | refused hreach => exact .step hreach
  | told _ _ ih => exact .step ih
  | inside _ _ ih => exact .step ih
  | throws _ _ _ _ ih => exact .step ih
  | ends _ _ _ ih => exact .step ih
  | ended _ ih => exact .step ih

theorem Raises.unfaulted {m : Machine V N W} {e : Raised V} {s : State V W} (h : Raises rt m e s) :
    m.mode ≠ .faulted := by
  intro hfaulted
  cases h with
  | instruction hmode => cases hmode.symm.trans hfaulted
  | native hmode => cases hmode.symm.trans hfaulted
  | overflow hmode => cases hmode.symm.trans hfaulted

theorem Orderly.of_start {id : FunctionId} {closure : V} {args : List V} {world : W} {m : Machine V N W}
    (hreach : Machine.Reachable rt (Machine.start id closure args world) m) (hmode : m.mode ≠ .faulted) :
    Orderly m :=
  (Orderly.start.reachable hreach).resolve_left hmode

/-- Every stage is what it says, and the task stays cancelled. -/
theorem Unwinding.kept {id : FunctionId} {closure : V} {args : List V} {world : W} {stage : Stage}
    {m : Machine V N W} {message : ErrorMessage} (hrt : Lasting rt (rt.isCancelled · = true))
    (hmarker : rt.rethrown rt.none = .cancelled message)
    (h : Unwinding rt (Machine.start id closure args world) stage m) :
    stage.Kept rt m ∧ rt.isCancelled m.state.world = true := by
  induction h with
  | @thrown m message s hreach hroom hraises hcancelled =>
    have horderly := Orderly.of_start hreach hraises.unfaulted
    refine ⟨hraises.kept horderly hroom hcancelled, ?_⟩
    rw [hraises.step]
    exact catchException_lasting hrt hcancelled
  | @refused m callee args next message s hreach hmode hrefused hcancelled =>
    rw [hrefused]
    exact ⟨⟨_, rfl⟩, resumeNative_lasting hrt hcancelled⟩
  | @told m h hrelays ih =>
    obtain ⟨hkept, hcancelled⟩ := ih
    have horderly := Orderly.of_start h.reachable hkept.unfaulted
    refine ⟨?_, step_lasting hrt hcancelled⟩
    obtain ⟨message, hmode, hroom⟩ | ⟨callee, args, next, hmode, hshields⟩ := hrelays
    · exact (Raises.native hmode).kept horderly hroom hcancelled
    · have hlive := horderly.live fun result hfinished => nomatch hmode.symm.trans hfinished
      have hframes : m.state.control.frames ≠ [] :=
        List.ne_nil_of_length_pos (Nat.zero_lt_of_lt hlive)
      have htold : ∃ action, (Machine.step rt m).mode = .native action := by
        simp only [Machine.step, hmode]
        split
        · exact ⟨_, hmode⟩
        next hnative => exact callBack_refused hcancelled hshields hnative hframes
      obtain ⟨action, htold⟩ := htold
      rw [show Stage.of (Machine.step rt m) = .told by simp only [Stage.of, htold]]
      exact ⟨action, htold⟩
  | @inside body m h hkeeps ih =>
    obtain ⟨hkept, hcancelled⟩ := ih
    have horderly := Orderly.of_start h.reachable hkept.unfaulted
    refine ⟨⟨hkept.1, ?_⟩, step_lasting hrt hcancelled⟩
    have hrunning : ∀ result, m.mode ≠ .finished result := by
      intro result hfinished
      obtain hmode | ⟨action, hmode⟩ := hkept.2.active <;> cases hmode.symm.trans hfinished
    have hlive := horderly.live hrunning
    exact hkept.2.steps hkeeps (step_steps (List.ne_nil_of_length_pos (Nat.zero_lt_of_lt hlive)))
  | @throws body m message s h hown hroom hraises ih =>
    obtain ⟨hkept, hcancelled⟩ := ih
    have horderly := Orderly.of_start h.reachable hkept.unfaulted
    exact ⟨hraises.kept horderly hroom ((hraises.spec horderly hrt).2.2 hcancelled),
      step_lasting hrt hcancelled⟩
  | @ends body m h hroom hends ih =>
    obtain ⟨hkept, hcancelled⟩ := ih
    have horderly := Orderly.of_start h.reachable hkept.unfaulted
    obtain ⟨s, hraises⟩ := hends.raises hmarker
    exact ⟨hraises.kept horderly hroom ((hraises.spec horderly hrt).2.2 hcancelled),
      step_lasting hrt hcancelled⟩
  | @ended m h ih =>
    obtain ⟨⟨message, hmode⟩, hcancelled⟩ := ih
    refine ⟨⟨message, ?_⟩, step_lasting hrt hcancelled⟩
    simp only [Machine.step, hmode]

/-- From a cancellation on, in a run in which native code passes it on and `finally` bodies end
    by rethrowing: native code that was told of it has not returned a value, code of the program
    runs only in `finally` bodies, and the task ends as cancelled. -/
theorem cancellation_not_swallowed {id : FunctionId} {closure : V} {args : List V} {world : W}
    {stage : Stage} {m : Machine V N W} {message : ErrorMessage}
    (hrt : Lasting rt (rt.isCancelled · = true)) (hmarker : rt.rethrown rt.none = .cancelled message)
    (h : Unwinding rt (Machine.start id closure args world) stage m) :
    stage.Holds rt m ∧ ∀ result, m.mode = .finished result →
      buildSpawnFuture (rt.isCancelled m.state.world) result = .cancelled := by
  obtain ⟨hkept, -⟩ := h.kept hrt hmarker
  refine ⟨hkept.holds, fun result hfinished => ?_⟩
  cases stage with
  | told =>
    obtain ⟨action, hmode⟩ := hkept
    cases hmode.symm.trans hfinished
  | cleaning body =>
    obtain hmode | ⟨action, hmode⟩ := hkept.2.active <;> cases hmode.symm.trans hfinished
  | ended =>
    obtain ⟨message, hmode⟩ := hkept
    cases hmode.symm.trans hfinished
    rfl

/-! ## Two tasks -/

/-- The values of the tasks below. -/
inductive TaskValue where
  | none
  | boolean (b : Bool)
  | text (message : String)
  | function (id : FunctionId)
  | arrayMap
  | array (elements : List TaskValue)
  | success (value : TaskValue)
  | failure (message : String)

/-- `Array.map` before it starts, and native code that waits for a callback. -/
inductive TaskNative where
  | arrayMap
  | waiting (next : Except (Raised TaskValue) TaskValue → NativeCode TaskValue TaskValue)

def taskValues : NativeValues TaskValue where
  null := .none
  ofBool := .boolean
  isNull := fun
    | .none => true
    | _ => false
  isTruthy := fun
    | .none | .boolean false | .failure _ => false
    | _ => true
  makeArray := .array
  makeSuccess := .success
  makeFailure := fun message _ => .failure message
  emptyDictionary := .none
  tally := fun dict _ => dict

/-- Array.map on its arguments. -/
def runArrayMap : List TaskValue → NativeCode TaskValue TaskValue
  | [.array elements, callable] =>
    NativeCode.mapWithErrorHandling taskValues elements callable NativeCode.mapMapper
  | _ => .throw (.error "Array.map: expected an array and a function" Option.none)

def taskNames : NameTable where
  names := [[]]
  nodup := List.nodup_singleton _
  size_le := by decide

/-- A program whose task is cancelled once it runs. -/
def taskRuntime (main : Bytes) : Runtime TaskValue TaskNative Bool where
  function := fun
    | 0 => { verifiedFunction main with chunk := { Chunk.empty with code := main, names := taskNames } }
    | _ => { verifiedFunction [Op.true_.toByte, Op.return_.toByte] with arity := 1, requiredArity := 1 }
  functionTable := fun _ => [0, 1]
  limits := ⟨1000, 1000, 1000⟩
  none := .none
  ofConstant := fun _ => .none
  ofBool := .boolean
  ofString := .text
  isTruthy := taskValues.isTruthy
  toStringValue := fun v => v
  typeName := fun _ => "value"
  callee := fun
    | .function id => .function id
    | .arrayMap => .native .arrayMap
    | _ => .notCallable
  coalesced := fun _ => Option.none
  piped := fun _ => Option.none
  bindArguments := fun _ _ _ => .ok fun _ => .none
  compute := fun op operands _ values w => match op, operands with
    | .getGlobal, _ => (.ok .arrayMap, w)
    | .makeArray, _ => (.ok (.array values), w)
    | .makeClosure, [id] => (.ok (.function id), w)
    | _, _ => (.ok .none, w)
  iterate := fun _ _ w => (.ok .exhausted, w)
  makeExclusive := fun v w => (v, w)
  rethrown := fun
    | .none => .cancelled "task cancelled"
    | .text message => .error message Option.none
    | _ => .error "" Option.none
  isCancelled := fun w => w
  isCancellationMarker := fun
    | .none => true
    | _ => false
  environment := fun _ => true
  startNative := fun start args w => (match start with
    | .arrayMap => (runArrayMap args).action .waiting
    | .waiting next => (next (.ok .none)).action .waiting, w)
  resumeNative := fun next result w => (match next with
    | .arrayMap => .finish result
    | .waiting next => (next result).action .waiting, w)

theorem taskRuntime_lasting {main : Bytes} :
    Lasting (taskRuntime main) ((taskRuntime main).isCancelled · = true) where
  environment := fun _ _ => rfl
  compute := fun op operands _ _ _ h => by
    unfold taskRuntime
    dsimp only
    split <;> exact h
  iterate := fun _ _ _ h => h
  makeExclusive := fun _ _ h => h
  startNative := fun _ _ _ h => h
  resumeNative := fun _ _ _ h => h

/-- The first task, at one of its instructions. -/
def taskMachine (stack : List TaskValue) (ip : Nat) (handlers : List ExceptionHandler)
    (shields : List CancelShield) : Machine TaskValue TaskNative Bool where
  state :=
    { stack
      frames := [{ function := 0, closure := some .none, ip, slotOffset := 0 }]
      handlers
      shields
      baseDepth := 0
      taskScopes := 0
      loopIterations := 0
      totalLoopIterations := 0
      world := true }
  activations := []
  scopeBase := 0
  mode := .running

def taskStart : Machine TaskValue TaskNative Bool := Machine.start 0 .none [] false

/-- `try { f() } finally { true }`. -/
def cleaningMain : Bytes :=
  [Op.tryCatch.toByte, 0, 0, 0, 8, Op.makeClosure.toByte, 0, 1, 0, Op.call.toByte, 0, Op.tryEnd.toByte,
    Op.return_.toByte, Op.true_.toByte, Op.pop.toByte, Op.rethrow.toByte]

def cleaningHandler : ExceptionHandler where
  function := 0
  catchIp := 13
  frameIndex := 0
  stackDepth := 1
  taskScopeDepth := 0

def cleaningBody : Cleanup where
  function := 0
  catchIp := 13
  frameIndex := 0
  stackDepth := 1
  nativeCalls := 0

/-- The call is a cancellation point; the body is executed and rethrows. -/
theorem cleaning_unwinds :
    ∃ m, Unwinding (taskRuntime cleaningMain) taskStart .ended m ∧
      m.mode = .finished (.error (.cancelled "task cancelled")) := by
  have hentered : Unwinding (taskRuntime cleaningMain) taskStart (.cleaning cleaningBody)
      (taskMachine [.none, .none] 13 [] [⟨0, 1⟩]) := by
    have hinstalled : Machine.Reachable (taskRuntime cleaningMain) taskStart
        (taskMachine [.none] 5 [cleaningHandler] []) := .step .refl
    have hcalling : Machine.Reachable (taskRuntime cleaningMain) taskStart
        (taskMachine [.function 1, .none] 9 [cleaningHandler] []) := .step hinstalled
    refine .thrown hcalling (fun h hh => ?_) (.instruction rfl rfl) rfl
    obtain rfl := List.mem_singleton.mp hh
    decide
  have hpushed : Unwinding (taskRuntime cleaningMain) taskStart (.cleaning cleaningBody)
      (taskMachine [.boolean true, .none, .none] 14 [] [⟨0, 1⟩]) := by
    refine .inside hentered ⟨fun _ s hs => (nomatch congrArg Prod.fst hs), ?_, ?_⟩
    · rintro - cf frames op ⟨⟩ ⟨⟩
      exact ⟨by decide, fun _ => by decide, by decide⟩
    · rintro - e s (⟨-, hrun⟩ | ⟨⟨⟩⟩ | ⟨⟨⟩, -⟩)
      exact nomatch congrArg Prod.fst hrun
  have hpopped : Unwinding (taskRuntime cleaningMain) taskStart (.cleaning cleaningBody)
      (taskMachine [.none, .none] 15 [] [⟨0, 1⟩]) := by
    refine .inside hpushed ⟨fun _ s hs => (nomatch congrArg Prod.fst hs), ?_, ?_⟩
    · rintro - cf frames op ⟨⟩ ⟨⟩
      exact ⟨by decide, fun _ => by decide, by decide⟩
    · rintro - e s (⟨-, hrun⟩ | ⟨⟨⟩⟩ | ⟨⟨⟩, -⟩)
      exact nomatch congrArg Prod.fst hrun
  refine ⟨_, .ends hpopped (fun h hh => nomatch hh) ?_, rfl⟩
  exact ⟨rfl, rfl, _, _, _, rfl, rfl, rfl, rfl, by decide, rfl⟩

theorem cancellation_not_swallowed_cleaning :
    ∃ m, Unwinding (taskRuntime cleaningMain) taskStart .ended m ∧
      Stage.ended.Holds (taskRuntime cleaningMain) m ∧ ∀ result, m.mode = .finished result →
        buildSpawnFuture ((taskRuntime cleaningMain).isCancelled m.state.world) result = .cancelled := by
  obtain ⟨m, hunwinds, -⟩ := cleaning_unwinds
  exact ⟨m, hunwinds, cancellation_not_swallowed taskRuntime_lasting rfl hunwinds⟩

/-- `Array.map([true], f)`. -/
def mappingMain : Bytes :=
  [Op.getGlobal.toByte, 0, 0, Op.true_.toByte, Op.makeArray.toByte, 0, 1, Op.makeClosure.toByte, 0, 1, 0,
    Op.call.toByte, 2, Op.return_.toByte]

/-- The callback is refused since the task is cancelled. Array.map makes a failure of that, and the
    task goes on and ends with a value. -/
theorem arrayMap_swallows :
    ∃ m m' : Machine TaskValue TaskNative Bool, ∃ callee args next message s,
      Machine.Reachable (taskRuntime mappingMain) taskStart m ∧
      m.mode = .native (.call callee args next) ∧
      Machine.step (taskRuntime mappingMain) m =
        Machine.resumeNative (taskRuntime mappingMain) next (.error (.cancelled message))
          { m with state := s } ∧
      (taskRuntime mappingMain).isCancelled s.world = true ∧
      Machine.Reachable (taskRuntime mappingMain) (Machine.step (taskRuntime mappingMain) m) m' ∧
      m'.mode = .finished (.ok (.failure "task cancelled")) := by
  have hmap : Machine.Reachable (taskRuntime mappingMain) taskStart
      (taskMachine [.arrayMap, .none] 3 [] []) := .step .refl
  have htrue : Machine.Reachable (taskRuntime mappingMain) taskStart
      (taskMachine [.boolean true, .arrayMap, .none] 4 [] []) := .step hmap
  have harray : Machine.Reachable (taskRuntime mappingMain) taskStart
      (taskMachine [.array [.boolean true], .arrayMap, .none] 7 [] []) := .step htrue
  have hclosure : Machine.Reachable (taskRuntime mappingMain) taskStart
      (taskMachine [.function 1, .array [.boolean true], .arrayMap, .none] 11 [] []) := .step harray
  have hcall : Machine.Reachable (taskRuntime mappingMain) taskStart
      { taskMachine [.none] 13 [] [] with
        mode := .native ((runArrayMap [.array [.boolean true], .function 1]).action .waiting) } :=
    .step hclosure
  refine ⟨_, Machine.step (taskRuntime mappingMain) (taskMachine [.failure "task cancelled", .none] 13 [] []),
    _, _, _, "task cancelled", (taskMachine [.none] 13 [] []).state, hcall, rfl, rfl, rfl, ?_, rfl⟩
  have hfailure : Machine.Reachable (taskRuntime mappingMain)
      (Machine.step (taskRuntime mappingMain) { taskMachine [.none] 13 [] [] with
        mode := .native ((runArrayMap [.array [.boolean true], .function 1]).action .waiting) })
      (taskMachine [.failure "task cancelled", .none] 13 [] []) := .step .refl
  exact .step hfailure

end Luma.Vm
