-- SUMMARY: The slots a call binds its arguments to.
import Luma.Library.Writes
import Luma.Vm.CallEntry

/-! # Binding Arguments

The arguments of a call are writes to the slots of the parameters. The VM refuses a
call with an argument for no parameter, or with nothing for one of the first
`required_arity` parameters; every other call it enters with all writes carried out,
unless it runs into a limit or a cancellation. -/

namespace Luma.Vm

open Codec

variable {α N W : Type} {sig : Signature} {call : CallExpression α} {func : CompiledFunction}

/-! ## What a call gives -/

namespace CallExpression

/-- The arguments that are for a parameter, with its position. -/
def assignments (call : CallExpression α) (sig : Signature) : List (Nat × StackValue α) :=
  call.positional.zipIdx.map Prod.swap ++
    call.named.filterMap fun p => (sig.names.idxOf? p.1).map fun i => (i, p.2)

/-- The parameters that a call gives an argument, once for each argument. -/
def targets (call : CallExpression α) (sig : Signature) : List Nat :=
  (call.assignments sig).map Prod.fst

/-- The values of the parameters, none where there is no argument. -/
def boundSlots (call : CallExpression α) (sig : Signature) : List (StackValue α) :=
  writeAll (call.assignments sig) (List.replicate sig.arity .none)

/-- The calls that the VM refuses: an argument is for no parameter, or one of the first
    `required_arity` parameters is left out. -/
def Refused (call : CallExpression α) (sig : Signature) : Prop :=
  sig.arity < call.positional.length ∨ (∃ p ∈ call.named, p.1 ∉ sig.names) ∨
    ∃ i < sig.requiredCount, i ∉ call.targets sig

theorem targets_eq : call.targets sig = List.range call.positional.length ++
    call.named.filterMap fun p => sig.names.idxOf? p.1 := by
  have hpositional : (call.positional.zipIdx.map Prod.swap).map Prod.fst =
      List.range call.positional.length := by
    rw [List.map_map, List.range_eq_range']
    exact List.zipIdx_map_snd 0 call.positional
  have hnamed : (call.named.filterMap fun p => (sig.names.idxOf? p.1).map fun i => (i, p.2)).map Prod.fst =
      call.named.filterMap fun p => sig.names.idxOf? p.1 := by
    rw [List.map_filterMap]
    refine congrArg (fun f => List.filterMap f call.named) (funext fun p => ?_)
    cases sig.names.idxOf? p.1 <;> rfl
  rw [targets, assignments, List.map_append, hpositional, hnamed]

@[simp] theorem length_boundSlots : (call.boundSlots sig).length = sig.arity := by
  rw [boundSlots, length_writeAll, List.length_replicate]

/-- A parameter without an argument holds none. -/
theorem getElem?_boundSlots_of_notMem {i : Nat} (h : i ∉ call.targets sig) (hi : i < sig.arity) :
    (call.boundSlots sig)[i]? = some .none := by
  rw [boundSlots, getElem?_writeAll_of_notMem h, List.getElem?_replicate, if_pos hi]

/-- A parameter with one argument holds it. -/
theorem getElem?_boundSlots_of_mem {i : Nat} {v : StackValue α} (hnodup : (call.targets sig).Nodup)
    (h : (i, v) ∈ call.assignments sig) (hi : i < sig.arity) : (call.boundSlots sig)[i]? = some v :=
  getElem?_writeAll_of_mem hnodup h (by rwa [List.length_replicate])

/-- The number of operands above the callee. -/
theorem length_operands : call.operands.length = call.positional.length + call.named.length * 2 := by
  have hpairs : ∀ named : List (Bytes × StackValue α),
      (named.flatMap fun p => [StackValue.string p.1, p.2]).length = named.length * 2 := by
    intro named
    induction named with
    | nil => rfl
    | cons p named ih =>
      rw [List.flatMap_cons, List.length_append, ih, @List.length_cons _ p named]
      change 2 + named.length * 2 = _
      omega
  rw [operands, List.length_append]
  exact congrArg _ (hpairs call.named)

end CallExpression

theorem Signature.requiredCount_le : sig.requiredCount ≤ sig.arity := List.countP_le_length

/-! ## Binding -/

theorem bindPositionalArgs_error (args : ArgumentSlots α) {posArgs : List (StackValue α)} {fullArity : Nat}
    (h : fullArity < posArgs.length) : ∃ e, bindPositionalArgs args posArgs fullArity = .error e := by
  rw [bindPositionalArgs, if_pos h]
  exact ⟨_, rfl⟩

theorem bindPositionalArgs_ok {posArgs : List (StackValue α)} {fullArity : Nat}
    (h : posArgs.length ≤ fullArity) : bindPositionalArgs (List.replicate fullArity none) posArgs fullArity =
      .ok (writeAll ((posArgs.zipIdx.map Prod.swap).map fun w => (w.1, some w.2))
        (List.replicate fullArity none)) := by
  have hwrites : ((posArgs.zipIdx.map Prod.swap).map fun w => (w.1, some w.2)) =
      (posArgs.map some).zipIdx.map Prod.swap := by
    rw [List.zipIdx_map, List.map_map, List.map_map]
    rfl
  have hfits : (posArgs.map some).length ≤
      (List.replicate fullArity (none : Option (StackValue α))).length := by
    rwa [List.length_map, List.length_replicate]
  rw [bindPositionalArgs, if_neg (Nat.not_lt.mpr h), hwrites, writeAll_zipIdx hfits, List.length_map]

theorem bindNamedArgs_ok (hdeclared : sig.DeclaredBy func) {pairs : List (Bytes × StackValue α)}
    (hknown : ∀ p ∈ pairs, p.1 ∈ sig.names) {args : ArgumentSlots α} :
    bindNamedArgs func args pairs =
      .ok (writeAll (pairs.filterMap fun p => (sig.names.idxOf? p.1).map fun i => (i, some p.2)) args) := by
  induction pairs generalizing args with
  | nil => rfl
  | cons p pairs ih =>
    obtain ⟨name, value⟩ := p
    have hname : name ∈ sig.names := hknown (name, value) List.mem_cons_self
    obtain ⟨index, hindex⟩ := Option.isSome_iff_exists.mp (List.isSome_idxOf?.mpr hname)
    rw [bindNamedArgs, paramNameIndex, hdeclared.paramNames, hindex, List.filterMap_cons, hindex,
      Option.map_some, writeAll_cons]
    exact ih fun q hq => hknown q (List.mem_cons_of_mem _ hq)

theorem bindNamedArgs_error (hdeclared : sig.DeclaredBy func) {pairs : List (Bytes × StackValue α)}
    (hunknown : ∃ p ∈ pairs, p.1 ∉ sig.names) (args : ArgumentSlots α) :
    ∃ e, bindNamedArgs func args pairs = .error e := by
  induction pairs generalizing args with
  | nil =>
    obtain ⟨p, hp, -⟩ := hunknown
    exact absurd hp List.not_mem_nil
  | cons p pairs ih =>
    obtain ⟨name, value⟩ := p
    rw [bindNamedArgs, paramNameIndex, hdeclared.paramNames]
    cases hindex : sig.names.idxOf? name with
    | none => exact ⟨_, rfl⟩
    | some index =>
      obtain ⟨q, hq, hqname⟩ := hunknown
      have hknown : name ∈ sig.names := List.isSome_idxOf?.mp (by rw [hindex]; rfl)
      rcases List.mem_cons.mp hq with rfl | hq
      · exact absurd hknown hqname
      · exact ih ⟨q, hq, hqname⟩ _

theorem namedPairs_string (pairs : List (Bytes × StackValue α)) :
    namedPairs (pairs.map fun p => (.string p.1, p.2)) = .ok pairs := by
  induction pairs with
  | nil => rfl
  | cons p pairs ih =>
    rw [List.map_cons, namedPairs, ih]
    rfl

/-- The slots with the arguments of a call. -/
def boundArgs (call : CallExpression α) (sig : Signature) : ArgumentSlots α :=
  writeAll ((call.assignments sig).map fun w => (w.1, some w.2)) (List.replicate sig.arity none)

theorem length_boundArgs : (boundArgs call sig).length = sig.arity := by
  rw [boundArgs, length_writeAll, List.length_replicate]

theorem isNone_boundArgs {i : Nat} (hi : i < sig.arity) :
    (((boundArgs call sig)[i]?).getD none).isNone = true ↔ i ∉ call.targets sig := by
  have hfst : ((call.assignments sig).map fun w => (w.1, some w.2)).map Prod.fst = call.targets sig := by
    rw [List.map_map]
    rfl
  constructor
  · intro hnone hmem
    obtain ⟨v, hwrite, hv⟩ := getElem?_writeAll_mem (l := List.replicate sig.arity none) (hfst ▸ hmem)
      (by rwa [List.length_replicate])
    obtain ⟨w, -, hw⟩ := List.mem_map.mp hwrite
    cases hw
    rw [boundArgs, hv] at hnone
    exact Bool.false_ne_true hnone
  · intro hnot
    rw [boundArgs, getElem?_writeAll_of_notMem (hfst ▸ hnot), List.getElem?_replicate, if_pos hi]
    rfl

theorem map_boundArgs :
    (List.range sig.arity).map (fun i => (((boundArgs call sig)[i]?).getD none).getD .none) =
      call.boundSlots sig := by
  have hslots : (boundArgs call sig).map (fun v => v.getD .none) = call.boundSlots sig := by
    rw [boundArgs, map_writeAll, List.map_map, List.map_replicate]
    have hwrites : ((fun w : Nat × Option (StackValue α) => (w.1, w.2.getD .none)) ∘
        fun w : Nat × StackValue α => (w.1, some w.2)) = id := rfl
    rw [hwrites, List.map_id]
    rfl
  rw [← hslots]
  refine List.ext_getElem (by rw [List.length_map, List.length_range, List.length_map, length_boundArgs]) ?_
  intro i _ hi
  rw [List.length_map] at hi
  rw [List.getElem_map, List.getElem_map, List.getElem_range, List.getElem?_eq_getElem hi]
  rfl

/-- The first parameters are all bound, or the check of them fails. -/
theorem requireAllRequiredArgsBound_spec (call : CallExpression α) (hdeclared : sig.DeclaredBy func) :
    ((∃ i < sig.requiredCount, i ∉ call.targets sig) ∧
        ∃ e, requireAllRequiredArgsBound func (boundArgs call sig) = .error e) ∨
      (∀ i < sig.requiredCount, i ∈ call.targets sig) ∧
        requireAllRequiredArgsBound func (boundArgs call sig) = .ok () := by
  rw [requireAllRequiredArgsBound, hdeclared.requiredArity]
  cases hfind : (List.range sig.requiredCount).find? fun i => (((boundArgs call sig)[i]?).getD none).isNone with
  | none =>
    refine Or.inr ⟨fun i hi => ?_, rfl⟩
    have hbound := List.find?_eq_none.mp hfind i (List.mem_range.mpr hi)
    rw [isNone_boundArgs (Nat.lt_of_lt_of_le hi Signature.requiredCount_le)] at hbound
    exact not_not.mp hbound
  | some i =>
    have hi := List.mem_range.mp (List.mem_of_find?_eq_some hfind)
    have hnone : (((boundArgs call sig)[i]?).getD none).isNone = true :=
      List.find?_some (p := fun i => (((boundArgs call sig)[i]?).getD none).isNone) hfind
    exact Or.inl ⟨⟨i, hi, (isNone_boundArgs (Nat.lt_of_lt_of_le hi Signature.requiredCount_le)).mp hnone⟩, _, rfl⟩

/-- Binding the arguments of a call fails exactly when the VM refuses it. -/
theorem bindArguments_spec (call : CallExpression α) (hdeclared : sig.DeclaredBy func) :
    (call.Refused sig ∧ ∃ e, bindArguments func call.positional
        (call.named.map fun p => (.string p.1, p.2)) = .error e) ∨
      ¬ call.Refused sig ∧ ∃ f, bindArguments func call.positional
        (call.named.map fun p => (.string p.1, p.2)) = .ok f ∧
          (List.range sig.arity).map f = call.boundSlots sig := by
  simp only [bindArguments, namedPairs_string, hdeclared.arity, bind, Except.bind]
  by_cases hmany : sig.arity < call.positional.length
  · obtain ⟨e, he⟩ := bindPositionalArgs_error (List.replicate sig.arity none) hmany
    exact Or.inl ⟨Or.inl hmany, e, by rw [he]⟩
  rw [bindPositionalArgs_ok (Nat.not_lt.mp hmany)]
  dsimp only
  by_cases hunknown : ∃ p ∈ call.named, p.1 ∉ sig.names
  · obtain ⟨e, he⟩ := bindNamedArgs_error hdeclared hunknown
      (writeAll ((call.positional.zipIdx.map Prod.swap).map fun w => (w.1, some w.2))
        (List.replicate sig.arity none))
    exact Or.inl ⟨Or.inr (Or.inl hunknown), e, by rw [he]⟩
  have hknown : ∀ p ∈ call.named, p.1 ∈ sig.names := fun p hp => by
    by_contra hname
    exact hunknown ⟨p, hp, hname⟩
  have hnamed : (call.named.filterMap fun p => (sig.names.idxOf? p.1).map fun i => (i, some p.2)) =
      (call.named.filterMap fun p => (sig.names.idxOf? p.1).map fun i => (i, p.2)).map
        fun w => (w.1, some w.2) := by
    rw [List.map_filterMap]
    refine congrArg (fun f => List.filterMap f call.named) (funext fun p => ?_)
    cases sig.names.idxOf? p.1 <;> rfl
  have hargs : writeAll ((call.positional.zipIdx.map Prod.swap ++
      call.named.filterMap fun p => (sig.names.idxOf? p.1).map fun i => (i, p.2)).map fun w => (w.1, some w.2))
        (List.replicate sig.arity none) = boundArgs call sig := rfl
  rw [bindNamedArgs_ok hdeclared hknown, hnamed, ← writeAll_append, ← List.map_append, hargs]
  dsimp only
  rcases requireAllRequiredArgsBound_spec call hdeclared with ⟨hmissing, e, he⟩ | ⟨hbound, hok⟩
  · exact Or.inl ⟨Or.inr (Or.inr hmissing), e, by rw [he]⟩
  · refine Or.inr ⟨?_, _, by rw [hok], map_boundArgs⟩
    rintro (h | h | ⟨i, hi, hnot⟩)
    · exact hmany h
    · exact hunknown h
    · exact hnot (hbound i hi)

/-! ## Calls -/

/-- A state that has read the opcode of a call of a declared function. -/
structure CallSite (sig : Signature) (call : CallExpression α) (N W : Type) where
  rt : Runtime (StackValue α) N W
  state : State (StackValue α) W
  id : FunctionId
  upvalues : List α
  caller : CallFrame (StackValue α)
  rest : List (CallFrame (StackValue α))
  below : List (StackValue α)
  frames : state.frames = caller :: rest
  declared : sig.DeclaredBy (rt.function id)
  code : call.operandBytes <+: (rt.function caller.function).chunk.code.drop caller.ip
  stack : state.stack = call.operands.reverse ++ .function id upvalues :: below

namespace CallSite

variable (site : CallSite sig call N W)

def callee : StackValue α := .function site.id site.upvalues

/-- The frames once the instruction is read. -/
def resumed : List (CallFrame (StackValue α)) :=
  { site.caller with ip := site.caller.ip + call.operandBytes.length } :: site.rest

/-- The state in the callee, with its slots as the call binds them. -/
def entered : State (StackValue α) W :=
  enteredState (bindingRuntime site.rt) site.id site.callee (call.boundSlots sig) site.resumed site.below
    site.state

/-- A limit or a cancellation is in the way of the call. -/
def IsObstructed : Prop :=
  Obstructed (bindingRuntime site.rt) (site.below.length + 1 + sig.arity) site.state

/-- The bytes of the instruction are in the code of the caller. -/
theorem code_getElem? {i : Nat} {byte : UInt8} (h : call.operandBytes[i]? = some byte) :
    (site.rt.function site.caller.function).chunk.code[site.caller.ip + i]? = some byte := by
  obtain ⟨tail, htail⟩ := site.code
  rw [← List.getElem?_drop, ← htail, List.getElem?_append_left (List.getElem?_eq_some_iff.mp h).1, h]

theorem peek_callee {s : State (StackValue α) W} (hstack : s.stack = site.state.stack) :
    (peek (call.positional.length + call.named.length * 2) : Exec (StackValue α) N W _).runFrom s =
      (.ok site.callee, s) := by
  refine peek_run ?_
  rw [hstack, site.stack, ← CallExpression.length_operands, ← List.length_reverse,
    List.getElem?_append_right (Nat.le_refl _), Nat.sub_self]
  rfl

theorem length_resumed : site.resumed.length = site.state.frames.length := by
  rw [site.frames]
  rfl

/-- Entering the function with arguments on the stack: they fill the slots, or the number
    of them is not in the range of the function. -/
theorem callFunction_ends (args : List (StackValue α)) {s : State (StackValue α) W}
    (hs : s = { site.state with stack := args.reverse ++ site.callee :: site.below, frames := site.resumed })
    (hslots : InRange (site.rt.function site.id) args.length →
      args ++ List.replicate (sig.arity - args.length) .none = call.boundSlots sig)
    (hrange : InRange (site.rt.function site.id) args.length ↔ ¬ call.Refused sig) :
    RaisesWith (callFunction (bindingRuntime site.rt) site.id args.length) s site.resumed ∧
        (site.IsObstructed ∨ call.Refused sig) ∨
      ¬ call.Refused sig ∧ (callFunction (bindingRuntime site.rt) site.id args.length).runFrom s =
        (.ok (), site.entered) := by
  have harity : ((bindingRuntime site.rt).function site.id).arity = sig.arity := site.declared.arity
  have hstack : s.stack = args.reverse ++ site.callee :: site.below := by rw [hs]
  have hframes : s.frames = site.resumed := by rw [hs]
  rcases callFunction_run (bindingRuntime site.rt) site.id hstack with
    ⟨hraises, hwhy⟩ | ⟨hin, hrun⟩
  · rw [hframes] at hraises
    refine Or.inl ⟨hraises, hwhy.imp (fun hobstructed => ?_) fun hout => ?_⟩
    · rw [harity, Obstructed, hframes, site.length_resumed, hs] at hobstructed
      exact hobstructed
    · by_contra haccepted
      exact hout (hrange.mpr haccepted)
  · refine Or.inr ⟨hrange.mp hin, ?_⟩
    rw [hrun, harity, hframes]
    change (_, enteredState _ _ _ (args ++ List.replicate (sig.arity - args.length) .none) _ _ _) = _
    rw [hslots hin, hs]
    rfl

/-- A call by position. -/
theorem handleCall_ends (hnamed : call.named = []) :
    RaisesWith (handleCall (bindingRuntime site.rt)) site.state site.resumed ∧
        (site.IsObstructed ∨ call.Refused sig) ∨
      ¬ call.Refused sig ∧
        (handleCall (bindingRuntime site.rt)).runFrom site.state = (.ok (), site.entered) := by
  have hbytes : call.operandBytes = [UInt8.ofNat call.positional.length] := by
    rw [CallExpression.operandBytes, hnamed]
    rfl
  have hcount : (UInt8.ofNat call.positional.length).toNat = call.positional.length :=
    UInt8.toNat_ofNat_of_lt' call.positional_fits
  have hread := readByte_run (bindingRuntime site.rt) site.frames
    (site.code_getElem? (i := 0) (by rw [hbytes]; rfl))
  rw [hcount] at hread
  have hpeek := site.peek_callee (s := { site.state with frames := site.resumed }) rfl
  rw [hnamed, List.length_nil, Nat.zero_mul, Nat.add_zero] at hpeek
  have hresumed : { site.caller with ip := site.caller.ip + 1 } :: site.rest = site.resumed := by
    rw [resumed, hbytes]
    rfl
  have htargets : call.targets sig = List.range call.positional.length := by
    rw [CallExpression.targets_eq, hnamed, List.filterMap_nil, List.append_nil]
  have hends := site.callFunction_ends call.positional
    (s := { site.state with frames := site.resumed }) ?_ ?_ ?_
  · have hrun : ∀ r, (callFunction (bindingRuntime site.rt) site.id call.positional.length).runFrom
        { site.state with frames := site.resumed } = r →
          (handleCall (bindingRuntime site.rt)).runFrom site.state = r := by
      intro r hr
      rw [handleCall, run_bind hread, hresumed, run_bind hpeek]
      exact hr
    rcases hends with ⟨⟨e, t, hraise, hframes⟩, hwhy⟩ | ⟨haccepted, hok⟩
    · exact Or.inl ⟨⟨e, t, hrun _ hraise, hframes⟩, hwhy⟩
    · exact Or.inr ⟨haccepted, hrun _ hok⟩
  · have hoperands : call.operands = call.positional := by
      rw [CallExpression.operands, hnamed, List.flatMap_nil, List.append_nil]
    have hstack := site.stack
    rw [hoperands] at hstack
    exact congrArg (fun stack => { site.state with stack, frames := site.resumed }) hstack
  · rintro ⟨-, hle⟩
    rw [site.declared.arity] at hle
    rw [CallExpression.boundSlots, CallExpression.assignments, hnamed, List.filterMap_nil, List.append_nil,
      writeAll_zipIdx (by rwa [List.length_replicate]), List.drop_replicate]
  · rw [InRange, site.declared.arity, site.declared.requiredArity, CallExpression.Refused, htargets, hnamed]
    constructor
    · rintro ⟨hfew, hmany⟩ (h | ⟨p, hp, -⟩ | ⟨i, hi, hnot⟩)
      · exact Nat.not_lt.mpr hmany h
      · exact absurd hp List.not_mem_nil
      · exact hnot (List.mem_range.mpr (Nat.lt_of_lt_of_le hi hfew))
    · intro h
      rw [not_or, not_or] at h
      refine ⟨?_, Nat.not_lt.mp h.1⟩
      by_contra hfew
      exact h.2.2 ⟨call.positional.length, Nat.not_le.mp hfew, by rw [List.mem_range]; exact Nat.lt_irrefl _⟩

/-- The names and values of the named arguments, as they are popped. -/
def pairs (call : CallExpression α) : List (StackValue α × StackValue α) :=
  call.named.map fun p => (.string p.1, p.2)

/-- The state after the operands of the call are popped. -/
def popped : State (StackValue α) W :=
  { site.state with stack := site.callee :: site.below, frames := site.resumed }

/-- A call with named arguments reads its operands and pops them. -/
theorem pops_operands (hnamed : call.named ≠ [])
    {k : Nat → Nat → StackValue α → List (StackValue α × StackValue α) → List (StackValue α) →
      Exec (StackValue α) N W Unit} :
    Stateful.runFrom (do
      let posCount ← readByte (bindingRuntime site.rt)
      let namedCount ← readByte (bindingRuntime site.rt)
      let callee ← peek (posCount + namedCount * 2)
      let named ← popPairs namedCount
      let positional ← popSequence posCount
      k posCount namedCount callee named positional) site.state =
    (k call.positional.length call.named.length site.callee (pairs call) call.positional).runFrom
      site.popped := by
  have hbytes : call.operandBytes =
      [UInt8.ofNat call.positional.length, UInt8.ofNat call.named.length] := by
    rw [CallExpression.operandBytes, List.isEmpty_eq_false_iff.mpr hnamed]
    rfl
  have hresumed : { site.caller with ip := site.caller.ip + 1 + 1 } :: site.rest = site.resumed := by
    rw [resumed, hbytes]
    rfl
  have hposCount : (UInt8.ofNat call.positional.length).toNat = call.positional.length :=
    UInt8.toNat_ofNat_of_lt' call.positional_fits
  have hnamedCount : (UInt8.ofNat call.named.length).toNat = call.named.length :=
    UInt8.toNat_ofNat_of_lt' call.named_fits
  have hread := readByte_run (bindingRuntime site.rt) site.frames
    (site.code_getElem? (i := 0) (by rw [hbytes]; rfl))
  have hreadNamed := readByte_run (bindingRuntime site.rt)
    (s := { site.state with frames := { site.caller with ip := site.caller.ip + 1 } :: site.rest }) rfl
    (site.code_getElem? (i := 1) (by rw [hbytes]; rfl))
  rw [hposCount] at hread
  rw [hnamedCount, hresumed] at hreadNamed
  -- The named arguments are on top, above the arguments by position.
  have hstack : site.state.stack = ((pairs call).flatMap fun p => [p.1, p.2]).reverse ++
      (call.positional.reverse ++ site.callee :: site.below) := by
    rw [pairs, List.flatMap_map, site.stack, CallExpression.operands, List.reverse_append, List.append_assoc]
    rfl
  have hpairs := popPairs_run (N := N) (pairs call) (s := { site.state with frames := site.resumed }) hstack
  have hlength : (pairs call).length = call.named.length := List.length_map ..
  rw [hlength] at hpairs
  have hpeek := site.peek_callee (s := { site.state with frames := site.resumed }) rfl
  have hpop := popSequence_run (N := N) call.positional
    (s := { site.state with
      stack := call.positional.reverse ++ site.callee :: site.below
      frames := site.resumed }) rfl
  exact (run_bind hread).trans <| (run_bind hreadNamed).trans <| (run_bind hpeek).trans <|
    (run_bind hpairs).trans (run_bind hpop)

/-- A call with named arguments. -/
theorem handleCallNamed_ends (hnamed : call.named ≠ []) :
    RaisesWith (handleCallNamed (bindingRuntime site.rt)) site.state site.resumed ∧
        (site.IsObstructed ∨ call.Refused sig) ∨
      ¬ call.Refused sig ∧
        (handleCallNamed (bindingRuntime site.rt)).runFrom site.state = (.ok (), site.entered) := by
  have hcallee : (bindingRuntime site.rt).callee site.callee = .function site.id := rfl
  have hbinder : (bindingRuntime site.rt).bindArguments ((bindingRuntime site.rt).function site.id) =
      bindArguments (site.rt.function site.id) := rfl
  rcases bindArguments_spec call site.declared with ⟨hrefused, e, he⟩ | ⟨haccepted, f, hf, hslots⟩
  · refine Or.inl ⟨⟨e, site.popped, ?_, rfl⟩, Or.inr hrefused⟩
    rw [handleCallNamed, site.pops_operands hnamed]
    simp only [hcallee, hbinder, pairs, he]
    rfl
  have hrun : (handleCallNamed (bindingRuntime site.rt)).runFrom site.state = Stateful.runFrom (do
      pushAll (call.boundSlots sig)
      callFunction (bindingRuntime site.rt) site.id sig.arity) site.popped := by
    have harity : ((bindingRuntime site.rt).function site.id).arity = sig.arity := site.declared.arity
    rw [handleCallNamed, site.pops_operands hnamed]
    simp only [hcallee, hbinder, pairs, hf, harity, hslots, callValue]
  rcases pushAll_run (N := N) (call.boundSlots sig) site.popped with hpush | ⟨hover, hraises⟩
  · have hends := site.callFunction_ends (call.boundSlots sig)
      (s := { site.popped with stack := (call.boundSlots sig).reverse ++ site.popped.stack }) rfl ?_ ?_
    · rw [CallExpression.length_boundSlots] at hends
      rcases hends with ⟨hraises, hwhy⟩ | ⟨-, hok⟩
      · obtain ⟨e, t, hraise, hframes⟩ := RaisesWith.after (k := fun _ =>
          callFunction (bindingRuntime site.rt) site.id sig.arity) hpush hraises
        exact Or.inl ⟨⟨e, t, hrun.trans hraise, hframes⟩, hwhy⟩
      · exact Or.inr ⟨haccepted, hrun.trans ((run_bind hpush).trans hok)⟩
    · intro _
      rw [CallExpression.length_boundSlots, Nat.sub_self, List.replicate_zero, List.append_nil]
    · rw [CallExpression.length_boundSlots, InRange, site.declared.arity, site.declared.requiredArity]
      exact iff_of_true ⟨Signature.requiredCount_le, Nat.le_refl _⟩ haccepted
  · obtain ⟨e, t, hraise, hframes⟩ := RaisesWith.bind (k := fun _ =>
      callFunction (bindingRuntime site.rt) site.id sig.arity) hraises
    refine Or.inl ⟨⟨e, t, hrun.trans hraise, hframes⟩, Or.inl (Or.inr (Or.inr ?_))⟩
    rw [CallExpression.length_boundSlots] at hover
    exact hover

/-- A call that the VM does not refuse enters the function unless something obstructs it;
    every other call raises an error and pushes no frame. -/
theorem ends :
    RaisesWith (handleCallExpression site.rt call) site.state site.resumed ∧
        (site.IsObstructed ∨ call.Refused sig) ∨
      ¬ call.Refused sig ∧
        (handleCallExpression site.rt call).runFrom site.state = (.ok (), site.entered) := by
  rw [handleCallExpression]
  by_cases hnamed : call.named = []
  · rw [if_pos (List.isEmpty_iff.mpr hnamed)]
    exact site.handleCall_ends hnamed
  · rw [if_neg (mt List.isEmpty_iff.mp hnamed)]
    exact site.handleCallNamed_ends hnamed

end CallSite

end Luma.Vm
