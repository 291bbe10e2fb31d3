-- SUMMARY: When calls bind their arguments as they are written.
import Luma.Vm.ArgumentMapping

/-! # Calls Bind Their Arguments

Three things go wrong with a call. A parameter that is named twice, or named after it is
given by position, keeps the last argument only. A default value replaces an argument
that is none. And the VM takes the first `required_arity` parameters for the required
ones, which they are not when a parameter with a default value stands before one
without. Every other call is entered as it is written, or refused unentered. -/

namespace Luma.Vm

open Codec

variable {α N W E : Type} {sig : Signature} {call : CallExpression α}

/-! ## What a call should do -/

/-- The slots hold the arguments of the call, each parameter is given at most one, and
    required ones are given. -/
structure BoundOnce (call : CallExpression α) (sig : Signature) (slots : List (StackValue α)) : Prop where
  length : slots.length = sig.arity
  positional : ∀ (k : Nat) v, call.positional[k]? = some v → slots[k]? = some v
  named : ∀ p ∈ call.named, ∃ i : Nat, sig.names[i]? = some p.1 ∧ slots[i]? = some p.2
  once : (call.targets sig).Nodup
  required : ∀ i, sig.IsRequired i → i ∈ call.targets sig
  padded : ∀ i < sig.arity, i ∉ call.targets sig → slots[i]? = some .none

/-- The optional parameters that a call leaves out, in order. -/
def leftOut (call : CallExpression α) (sig : Signature) : List Nat :=
  (sig.parameters.zipIdx.filter fun p => p.1.isOptional && decide (p.2 ∉ call.targets sig)).map Prod.snd

/-- The start of the callee evaluates the default values of the parameters left out, in
    order, as far as these have values, and is what it is when it is told which
    parameters the call gives. -/
def EvaluatesDefaults (call : CallExpression α) (sig : Signature) (slots : List (StackValue α)) : Prop :=
  ∀ (W E : Type) (defaults : DefaultValues α W E), ScopedDefaults defaults → ∀ world,
    defaultParameterValues slotIsNone sig defaults slots world =
        defaultParameterValues (fun i _ => decide (i ∉ call.targets sig)) sig defaults slots world ∧
      (defaultParameterValues slotIsNone sig defaults slots world).evaluated <+: leftOut call sig ∧
      ((defaultParameterValues slotIsNone sig defaults slots world).stopped = none →
        (defaultParameterValues slotIsNone sig defaults slots world).evaluated = leftOut call sig)

/-- The arguments are in the slots that a mapping of the checker has for them. -/
structure CallArgumentMapping.Agrees (mapping : CallArgumentMapping) (call : CallExpression α)
    (slots : List (StackValue α)) : Prop where
  piped : ∀ v, call.piped = some v → slots[0]? = some v
  positional : ∀ (k : Nat) v, call.arguments[k]? = some v →
    ∃ i : Nat, mapping.positional[k]? = some (some i) ∧ slots[i]? = some v
  named : ∀ (k : Nat) p, call.named[k]? = some p →
    ∃ i : Nat, mapping.named[k]? = some (some i) ∧ slots[i]? = some p.2

/-- A call in a state: it raises an error and enters nothing, which it does to a call
    that the checker accepts only at an obstruction, or it enters the callee with its
    arguments bound, where the checker maps them if it accepts the call. -/
def CallSite.BindsArguments (site : CallSite sig call N W) : Prop :=
  (RaisesWith (handleCallExpression site.rt call) site.state site.resumed ∧
    ((∃ suggestName fnName, (mapCallArguments suggestName fnName sig call).2 = []) → site.IsObstructed)) ∨
  ∃ frame slots t, (handleCallExpression site.rt call).runFrom site.state = (.ok (), t) ∧
    t.frames = frame :: site.resumed ∧ frame.function = site.id ∧ frame.ip = 0 ∧
    frame.slotOffset = site.below.length ∧ t.stack = slots.reverse ++ site.callee :: site.below ∧
    BoundOnce call sig slots ∧ EvaluatesDefaults call sig slots ∧
    ∀ suggestName fnName, (mapCallArguments suggestName fnName sig call).2 = [] →
      (mapCallArguments suggestName fnName sig call).1.Agrees call slots

/-- Wherever the call is made, it binds its arguments as they are written. -/
def BindsArguments (call : CallExpression α) (sig : Signature) : Prop :=
  ∀ (N W : Type) (site : CallSite sig call N W), site.BindsArguments

/-- A call that the VM does not refuse gives no parameter twice, gives none to no optional
    one and leaves no required one out; and one that the checker accepts leaves none of
    the first `required_arity` parameters out. -/
structure CallExpression.BindsWhen (call : CallExpression α) (sig : Signature) : Prop where
  once : ¬ call.Refused sig → (call.targets sig).Nodup
  given : ¬ call.Refused sig → ∀ w ∈ call.assignments sig, sig.IsOptional w.1 → w.2 ≠ .none
  required : ¬ call.Refused sig → ∀ i, sig.IsRequired i → i ∈ call.targets sig
  accepted : call.WellMatched sig → ∀ i < sig.requiredCount, i ∈ call.targets sig

/-! ## Default values -/

section

variable {isMissing : Nat → List (StackValue α) → Bool} {defaults : DefaultValues α W E}
  {st : Prologue α W E}

/-- The code for a parameter leaves the slots of later ones as they are. -/
theorem defaultParameterValue_slots (hscoped : ScopedDefaults defaults) {p : Parameter} {i j : Nat}
    (hij : i < j) : (defaultParameterValue isMissing defaults st (p, i)).slots[j]? = st.slots[j]? := by
  rw [defaultParameterValue]
  split
  · dsimp only
    cases hrun : defaults i st.slots st.world with
    | mk result world =>
      cases result with
      | error e => rfl
      | ok r =>
        obtain ⟨v, slots⟩ := r
        exact (List.getElem?_set_ne (Nat.ne_of_lt hij)).trans ((hscoped i _ _ _ _ _ hrun).2 j hij)
  · rfl

/-- The code can be told which parameters are missing, when the slots say the same. -/
theorem foldl_defaultParameterValue_congr (hscoped : ScopedDefaults defaults) {slots : List (StackValue α)}
    {missing : Nat → Bool} {ps : List Parameter} {k : Nat}
    (hsame : ∀ j, k ≤ j → st.slots[j]? = slots[j]?)
    (hmissing : ∀ p ∈ ps.zipIdx k, p.1.isOptional = true → slotIsNone p.2 slots = missing p.2) :
    (ps.zipIdx k).foldl (defaultParameterValue slotIsNone defaults) st =
      (ps.zipIdx k).foldl (defaultParameterValue (fun i _ => missing i) defaults) st := by
  induction ps generalizing k st with
  | nil => rfl
  | cons p ps ih =>
    rw [List.zipIdx_cons] at hmissing ⊢
    have hslot : slotIsNone k st.slots = slotIsNone k slots := by
      rw [slotIsNone, slotIsNone, List.getD_eq_getElem?_getD, List.getD_eq_getElem?_getD,
        hsame k (Nat.le_refl k)]
    have hstep : defaultParameterValue slotIsNone defaults st (p, k) =
        defaultParameterValue (fun i _ => missing i) defaults st (p, k) := by
      rw [defaultParameterValue, defaultParameterValue]
      dsimp only
      cases hopt : p.isOptional with
      | false => rw [Bool.and_false, Bool.false_and, Bool.false_and]
      | true => rw [hslot, hmissing (p, k) List.mem_cons_self hopt]
    rw [List.foldl_cons, List.foldl_cons, ← hstep]
    refine ih (fun j hj => ?_) fun q hq => hmissing q (List.mem_cons_of_mem _ hq)
    exact (defaultParameterValue_slots hscoped hj).trans (hsame j (Nat.le_of_succ_le hj))

/-- Nothing is evaluated after a default value that had no value. -/
theorem foldl_defaultParameterValue_stopped {params : List (Parameter × Nat)} {e : E}
    (hstopped : st.stopped = some e) : params.foldl (defaultParameterValue isMissing defaults) st = st := by
  induction params with
  | nil => rfl
  | cons p params ih =>
    have hstep : defaultParameterValue isMissing defaults st p = st := by
      rw [defaultParameterValue, hstopped]
      rfl
    rw [List.foldl_cons, hstep, ih]

/-- The default value of a missing parameter is evaluated. -/
theorem defaultParameterValue_evaluated {p : Parameter × Nat} (hrunning : st.stopped = none)
    (h : (p.1.isOptional && isMissing p.2 st.slots) = true) :
    (defaultParameterValue isMissing defaults st p).evaluated = st.evaluated ++ [p.2] := by
  rw [defaultParameterValue, if_pos (by rw [hrunning, Bool.and_assoc, h]; rfl)]
  dsimp only
  split <;> rfl

/-- What is evaluated are the missing optional parameters in order, as far as it gets. -/
theorem foldl_defaultParameterValue_evaluated (defaults : DefaultValues α W E) (missing : Nat → Bool)
    (params : List (Parameter × Nat)) (st : Prologue α W E) (hrunning : st.stopped = none) :
    let pro := params.foldl (defaultParameterValue (fun i _ => missing i) defaults) st
    let expected := st.evaluated ++ (params.filter fun p => p.1.isOptional && missing p.2).map Prod.snd
    pro.evaluated <+: expected ∧ (pro.stopped = none → pro.evaluated = expected) := by
  dsimp only
  induction params generalizing st with
  | nil =>
    rw [List.filter_nil, List.map_nil, List.append_nil]
    exact ⟨List.prefix_rfl, fun _ => rfl⟩
  | cons p params ih =>
    rw [List.foldl_cons, List.filter_cons]
    by_cases hmissing : (p.1.isOptional && missing p.2) = true
    · have hevaluated : (defaultParameterValue (fun i _ => missing i) defaults st p).evaluated =
          st.evaluated ++ [p.2] := defaultParameterValue_evaluated hrunning hmissing
      rw [if_pos hmissing, List.map_cons, List.append_cons, ← hevaluated]
      cases hstopped : (defaultParameterValue (fun i _ => missing i) defaults st p).stopped with
      | none => exact ih _ hstopped
      | some e =>
        rw [foldl_defaultParameterValue_stopped hstopped]
        refine ⟨List.prefix_append _ _, fun hnone => ?_⟩
        rw [hstopped] at hnone
        exact absurd hnone (Option.some_ne_none e)
    · have hstep : defaultParameterValue (fun i _ => missing i) defaults st p = st := by
        rw [defaultParameterValue, if_neg]
        rw [Bool.and_assoc, Bool.and_eq_true_iff, not_and]
        exact fun _ => hmissing
      rw [if_neg hmissing, hstep]
      exact ih st hrunning

end

/-- The slots say of each optional parameter whether the call gives it. -/
def SlotsTell (call : CallExpression α) (sig : Signature) (slots : List (StackValue α)) : Prop :=
  ∀ p ∈ sig.parameters.zipIdx, p.1.isOptional = true →
    slotIsNone p.2 slots = decide (p.2 ∉ call.targets sig)

/-- A parameter is among those a test selects exactly when it passes the test. -/
theorem mem_selected {params : List Parameter} {f : Parameter × Nat → Bool} {p : Parameter × Nat}
    (hp : p ∈ params.zipIdx) : p.2 ∈ (params.zipIdx.filter f).map Prod.snd ↔ f p = true := by
  obtain ⟨param, i⟩ := p
  constructor
  · intro h
    obtain ⟨⟨q, j⟩, hmem, hj⟩ := List.mem_map.mp h
    obtain ⟨hq, hf⟩ := List.mem_filter.mp hmem
    cases hj
    have hsame := (List.mk_mem_zipIdx_iff_getElem?.mp hq).symm.trans (List.mk_mem_zipIdx_iff_getElem?.mp hp)
    cases hsame
    exact hf
  · exact fun hf => List.mem_map.mpr ⟨(param, i), List.mem_filter.mpr ⟨hp, hf⟩, rfl⟩

/-- Default values are evaluated as they should be when the slots tell what is left out. -/
theorem evaluatesDefaults_iff {slots : List (StackValue α)} :
    EvaluatesDefaults call sig slots ↔ SlotsTell call sig slots := by
  constructor
  · intro h p hp hopt
    -- Default values that are none and leave the slots as they are are told by the slots.
    let defaults : DefaultValues α Unit Empty := fun _ slots world => (.ok (.none, slots), world)
    have hscoped : ScopedDefaults defaults := by
      intro i slots world v slots' world' hrun
      cases hrun
      exact ⟨rfl, fun _ _ => rfl⟩
    have hevaluated := (h Unit Empty defaults hscoped ()).2.2 (Option.eq_none_iff_forall_ne_some.mpr fun e => e.elim)
    have hcode : defaultParameterValues slotIsNone sig defaults slots () =
        defaultParameterValues (fun i _ => slotIsNone i slots) sig defaults slots () :=
      foldl_defaultParameterValue_congr hscoped (fun _ _ => rfl) fun _ _ _ => rfl
    have htold := (foldl_defaultParameterValue_evaluated defaults (fun i => slotIsNone i slots)
      sig.parameters.zipIdx ⟨slots, (), [], none⟩ rfl).2
      (Option.eq_none_iff_forall_ne_some.mpr fun e => e.elim)
    rw [hcode, defaultParameterValues, htold, List.nil_append, leftOut] at hevaluated
    have hmem : p.2 ∈ (sig.parameters.zipIdx.filter fun p => p.1.isOptional && slotIsNone p.2 slots).map Prod.snd ↔
        p.2 ∈ (sig.parameters.zipIdx.filter fun p =>
          p.1.isOptional && decide (p.2 ∉ call.targets sig)).map Prod.snd := by
      rw [hevaluated]
    rw [mem_selected hp, mem_selected hp, hopt, Bool.true_and, Bool.true_and] at hmem
    exact Bool.eq_iff_iff.mpr hmem
  · intro h W E defaults hscoped world
    have hsame : defaultParameterValues slotIsNone sig defaults slots world =
        defaultParameterValues (fun i _ => decide (i ∉ call.targets sig)) sig defaults slots world :=
      foldl_defaultParameterValue_congr hscoped (fun _ _ => rfl) h
    refine ⟨hsame, ?_⟩
    rw [hsame]
    have hevaluated := foldl_defaultParameterValue_evaluated defaults
      (fun i => decide (i ∉ call.targets sig)) sig.parameters.zipIdx ⟨slots, world, [], none⟩ rfl
    rw [List.nil_append] at hevaluated
    exact hevaluated

/-! ## Slots -/

theorem lt_of_mem_assignments (haccepted : ¬ call.Refused sig) {w : Nat × StackValue α}
    (hw : w ∈ call.assignments sig) : w.1 < sig.arity :=
  lt_of_mem_targets (Nat.not_lt.mp fun hmany => haccepted (Or.inl hmany)) (List.mem_map_of_mem hw)

/-- The slots tell what is left out unless an optional parameter is given none. -/
theorem slotsTell_boundSlots (haccepted : ¬ call.Refused sig) (honce : (call.targets sig).Nodup) :
    SlotsTell call sig (call.boundSlots sig) ↔
      ∀ w ∈ call.assignments sig, sig.IsOptional w.1 → w.2 ≠ .none := by
  have hgiven : ∀ w ∈ call.assignments sig, slotIsNone w.1 (call.boundSlots sig) = w.2.isNone := by
    intro w hw
    rw [slotIsNone, List.getD_eq_getElem?_getD,
      CallExpression.getElem?_boundSlots_of_mem honce hw (lt_of_mem_assignments haccepted hw)]
    rfl
  constructor
  · rintro h w hw ⟨p, hp, hopt⟩ hnone
    have htold := h (p, w.1) (List.mk_mem_zipIdx_iff_getElem?.mpr hp) hopt
    have hmem : w.1 ∈ call.targets sig := List.mem_map_of_mem hw
    dsimp only at htold
    rw [hgiven w hw, hnone, decide_eq_false (not_not.mpr hmem)] at htold
    exact Bool.false_ne_true htold.symm
  · rintro h ⟨p, i⟩ hp hopt
    have hparam : sig.parameters[i]? = some p := List.mk_mem_zipIdx_iff_getElem?.mp hp
    by_cases hmem : i ∈ call.targets sig
    · obtain ⟨w, hw, rfl⟩ := List.mem_map.mp hmem
      rw [hgiven w hw, decide_eq_false (not_not.mpr hmem)]
      have hvalue := h w hw ⟨p, hparam, hopt⟩
      cases hw2 : w.2 with
      | none => exact absurd hw2 hvalue
      | string | function | other => rfl
    · have hlt : i < sig.arity := (List.getElem?_eq_some_iff.mp hparam).1
      rw [decide_eq_true hmem, slotIsNone, List.getD_eq_getElem?_getD,
        CallExpression.getElem?_boundSlots_of_notMem hmem hlt]
      rfl

/-- A positional argument is written to the slot of its position. -/
theorem mem_assignments_positional {k : Nat} {v : StackValue α} (h : call.positional[k]? = some v) :
    (k, v) ∈ call.assignments sig :=
  List.mem_append_left _ (List.mem_map.mpr ⟨(v, k), List.mk_mem_zipIdx_iff_getElem?.mpr h, rfl⟩)

/-- A named argument is written to the slot of its parameter. -/
theorem mem_assignments_named {p : Bytes × StackValue α} {i : Nat} (hp : p ∈ call.named)
    (hi : sig.names.idxOf? p.1 = some i) : (i, p.2) ∈ call.assignments sig :=
  List.mem_append_right _ (List.mem_filterMap.mpr ⟨p, hp, by rw [hi]; rfl⟩)

theorem boundOnce_boundSlots (haccepted : ¬ call.Refused sig) (honce : (call.targets sig).Nodup)
    (hrequired : ∀ i, sig.IsRequired i → i ∈ call.targets sig) :
    BoundOnce call sig (call.boundSlots sig) where
  length := CallExpression.length_boundSlots
  positional := fun k v hk => CallExpression.getElem?_boundSlots_of_mem honce (mem_assignments_positional hk)
    (lt_of_mem_assignments haccepted (mem_assignments_positional hk))
  named := by
    intro p hp
    have hknown : p.1 ∈ sig.names := by
      by_contra hunknown
      exact haccepted (Or.inr (Or.inl ⟨p, hp, hunknown⟩))
    obtain ⟨i, hi⟩ := Option.isSome_iff_exists.mp (List.isSome_idxOf?.mpr hknown)
    obtain ⟨hlt, hname⟩ := Signature.getElem?_of_idxOf? hi
    exact ⟨i, hname, CallExpression.getElem?_boundSlots_of_mem honce (mem_assignments_named hp hi) hlt⟩
  once := honce
  required := hrequired
  padded := fun _ hi hnot => CallExpression.getElem?_boundSlots_of_notMem hnot hi

/-- The checker maps the arguments of a call it accepts to the slots that hold them. -/
theorem mapping_agrees (suggestName : List Bytes → Bytes → String) (fnName : String)
    (h : call.WellMatched sig) :
    (mapCallArguments suggestName fnName sig call).1.Agrees call (call.boundSlots sig) := by
  have hslot : ∀ (k : Nat) v, call.positional[k]? = some v → (call.boundSlots sig)[k]? = some v := by
    intro k v hk
    have hmem : (k, v) ∈ call.assignments sig := mem_assignments_positional hk
    exact CallExpression.getElem?_boundSlots_of_mem h.once hmem
      (lt_of_mem_targets h.few (List.mem_map_of_mem (f := Prod.fst) hmem))
  rw [mapCallArguments_mapping suggestName fnName h]
  refine ⟨fun v hv => hslot 0 v ?_, fun k v hk => ?_, fun k p hk => ?_⟩
  · rw [CallExpression.positional, hv]
    rfl
  · refine ⟨k + call.piped.toList.length, ?_, hslot _ v ?_⟩
    · rw [List.getElem?_map, List.getElem?_range (List.getElem?_eq_some_iff.mp hk).1]
      rfl
    · rw [CallExpression.positional, List.getElem?_append_right (Nat.le_add_left ..), Nat.add_sub_cancel, hk]
  · have hp : p ∈ call.named := List.mem_of_getElem? hk
    obtain ⟨i, hi⟩ := Option.isSome_iff_exists.mp (List.isSome_idxOf?.mpr (h.known p hp))
    refine ⟨i, ?_, ?_⟩
    · rw [List.getElem?_map, List.getElem?_map, hk, Option.map_some, Option.map_some, hi]
    · exact CallExpression.getElem?_boundSlots_of_mem h.once (mem_assignments_named hp hi)
        (Signature.getElem?_of_idxOf? hi).1

/-! ## Calls -/

/-- A well matched call is refused only for the first `required_arity` parameters. -/
theorem CallExpression.BindsWhen.not_refused (h : call.BindsWhen sig) (hmatched : call.WellMatched sig) :
    ¬ call.Refused sig := by
  rintro (hmany | ⟨p, hp, hunknown⟩ | ⟨i, hi, hnot⟩)
  · exact Nat.not_lt.mpr hmatched.few hmany
  · exact hunknown (hmatched.known p hp)
  · exact hnot (h.accepted hmatched i hi)

theorem CallSite.bindsArguments (site : CallSite sig call N W) (h : call.BindsWhen sig) :
    site.BindsArguments := by
  rcases site.ends with ⟨hraises, hwhy⟩ | ⟨haccepted, hrun⟩
  · refine Or.inl ⟨hraises, ?_⟩
    rintro ⟨suggestName, fnName, haccepts⟩
    exact hwhy.resolve_right (h.not_refused ((mapCallArguments_accepts suggestName fnName).mp haccepts))
  · refine Or.inr ⟨_, call.boundSlots sig, _, hrun, rfl, rfl, rfl, rfl, rfl, ?_, ?_, ?_⟩
    · exact boundOnce_boundSlots haccepted (h.once haccepted) (h.required haccepted)
    · exact evaluatesDefaults_iff.mpr ((slotsTell_boundSlots haccepted (h.once haccepted)).mpr (h.given haccepted))
    · intro suggestName fnName haccepts
      exact mapping_agrees suggestName fnName ((mapCallArguments_accepts suggestName fnName).mp haccepts)

/-- A function with the parameters of a signature and some code. -/
def functionOf (sig : Signature) (code : Bytes) : CompiledFunction where
  name := []
  chunk := { Chunk.empty with code }
  arity := sig.arity
  requiredArity := sig.requiredCount
  upvalueCount := 0
  paramNames := sig.names
  debugInfo := ⟨[], []⟩
  upvalues := []
  isMain := false
  isTest := false
  verified := false

/-- A program of a declared function and a function that calls it. -/
def callingRuntime (sig : Signature) (call : CallExpression α) : Runtime (StackValue α) Unit Unit where
  function := fun id => if id = 0 then functionOf sig [] else functionOf sig call.operandBytes
  functionTable := fun _ => []
  limits := ⟨2, 1, 1⟩
  none := .none
  ofConstant := fun _ => .none
  ofBool := fun _ => .none
  ofString := fun _ => .none
  isTruthy := fun _ => false
  toStringValue := fun v => v
  typeName := fun _ => ""
  callee := fun _ => .notCallable
  coalesced := fun _ => none
  piped := fun _ => none
  bindArguments := fun _ _ _ => .ok fun _ => .none
  compute := fun _ _ _ _ w => (.ok .none, w)
  iterate := fun _ _ w => (.ok .exhausted, w)
  makeExclusive := fun v w => (v, w)
  rethrown := fun v => .error "" (some v)
  isCancelled := fun _ => false
  isCancellationMarker := fun _ => false
  environment := fun w => w
  startNative := fun _ _ w => (.finish (.ok .none), w)
  resumeNative := fun _ result w => (.finish result, w)

/-- The call in a program that nothing obstructs. -/
def plainSite (sig : Signature) (call : CallExpression α) : CallSite sig call Unit Unit where
  rt := callingRuntime sig call
  state := {
    stack := call.operands.reverse ++ [.function 0 []]
    frames := [⟨1, none, 0, 0⟩]
    handlers := []
    shields := []
    baseDepth := 0
    taskScopes := 0
    loopIterations := 0
    totalLoopIterations := 0
    world := () }
  id := 0
  upvalues := []
  caller := ⟨1, none, 0, 0⟩
  rest := []
  below := []
  frames := rfl
  declared := ⟨rfl, rfl, rfl⟩
  code := List.prefix_rfl
  stack := rfl

theorem plainSite_unobstructed : ¬ (plainSite sig call).IsObstructed := by
  have hfits : ([] : List (StackValue α)).length + 1 + sig.arity < maxStack := by
    have hparameters := sig.fits
    rw [List.length_nil, maxStack]
    change 0 + 1 + sig.parameters.length < 65536
    omega
  rintro (hdepth | hcancelled | hroom)
  · exact absurd hdepth (by change ¬ 2 ≤ 1; decide)
  · exact Bool.false_ne_true hcancelled
  · exact Nat.lt_asymm hfits hroom

/-- A call that binds its arguments in the plain program meets the condition. -/
theorem bindsWhen_of_plainSite (h : (plainSite sig call).BindsArguments) : call.BindsWhen sig := by
  have hbound : ¬ call.Refused sig →
      BoundOnce call sig (call.boundSlots sig) ∧ EvaluatesDefaults call sig (call.boundSlots sig) := by
    intro haccepted
    obtain ⟨-, hrun⟩ := (plainSite sig call).ends.resolve_left fun hraises =>
      hraises.2.elim plainSite_unobstructed haccepted
    rcases h with ⟨⟨e, t, hraise, -⟩, -⟩ | ⟨frame, slots, t, hend, -, -, -, -, hstack, honce, hdefaults, -⟩
    · rw [hrun] at hraise
      cases hraise
    · rw [hrun] at hend
      cases hend
      have hslots : (call.boundSlots sig).reverse = slots.reverse := List.append_cancel_right hstack
      rw [List.reverse_injective hslots]
      exact ⟨honce, hdefaults⟩
  refine ⟨fun ha => (hbound ha).1.once, fun ha => ?_, fun ha => (hbound ha).1.required, ?_⟩
  · exact (slotsTell_boundSlots ha (hbound ha).1.once).mp (evaluatesDefaults_iff.mp (hbound ha).2)
  · intro hmatched i hi
    by_contra hnot
    have haccepts : (mapCallArguments (fun _ _ => "") "" sig call).2 = [] :=
      (mapCallArguments_accepts _ _).mpr hmatched
    rcases h with ⟨-, hobstructed⟩ | ⟨frame, slots, t, hend, -⟩
    · exact plainSite_unobstructed (hobstructed ⟨_, _, haccepts⟩)
    · rcases (plainSite sig call).ends with ⟨⟨e, s, hraise, -⟩, -⟩ | ⟨haccepted, -⟩
      · rw [hend] at hraise
        cases hraise
      · exact haccepted (Or.inr (Or.inr ⟨i, hi, hnot⟩))

/-- A call binds its arguments as they are written, wherever it is made, exactly when it
    meets the condition. -/
theorem bindsArguments_iff (sig : Signature) (call : CallExpression α) :
    BindsArguments call sig ↔ call.BindsWhen sig :=
  ⟨fun h => bindsWhen_of_plainSite (h Unit Unit (plainSite sig call)),
    fun h _ _ site => site.bindsArguments h⟩

/-- The signature of `f(a = …)`. -/
def oneOptional : Signature where
  parameters := [⟨[97], true⟩]
  nodup := List.nodup_singleton _
  fits := by decide

/-- The call `f(a: none)`. -/
def givesNone : CallExpression Unit where
  piped := none
  arguments := []
  named := [([97], .none)]
  positional_fits := by decide
  named_fits := by decide

/-- `f(a: none)` evaluates the default value of `a`. -/
theorem none_takes_default : ¬ BindsArguments givesNone oneOptional := by
  intro h
  have hwhen := bindsWhen_of_plainSite (h Unit Unit (plainSite oneOptional givesNone))
  have haccepted : ¬ givesNone.Refused oneOptional := by
    rintro (h | ⟨p, hp, hunknown⟩ | ⟨i, hi, -⟩)
    · exact absurd h (by decide)
    · rw [List.mem_singleton.mp hp] at hunknown
      exact absurd hunknown (by decide)
    · exact Nat.not_lt_zero i hi
  exact hwhen.given haccepted (0, .none) (by decide) ⟨⟨[97], true⟩, rfl, rfl⟩ rfl

/-! ## Signatures in order -/

/-- Where the required parameters come first, a call binds its arguments unless it gives
    a parameter twice or gives none to an optional one. -/
theorem bindsWhen_of_required_first (hordered : ∀ i, sig.IsRequired i ↔ i < sig.requiredCount) :
    call.BindsWhen sig ↔ ¬ call.Refused sig → (call.targets sig).Nodup ∧
      ∀ w ∈ call.assignments sig, sig.IsOptional w.1 → w.2 ≠ .none := by
  constructor
  · exact fun h ha => ⟨h.once ha, h.given ha⟩
  · intro h
    refine ⟨fun ha => (h ha).1, fun ha => (h ha).2, fun ha i hi => ?_, fun hmatched i hi => ?_⟩
    · by_contra hnot
      exact ha (Or.inr (Or.inr ⟨i, (hordered i).mp hi, hnot⟩))
    · exact hmatched.required i ((hordered i).mpr hi)

end Luma.Vm
