-- SUMMARY: What a call instruction does to the stack and the frames.
import Luma.Vm.NamedArguments

/-! # Entering a Function

A call finds its operands on the stack above the callee. Either it raises an error and
pushes no frame, or it leaves the callee with its arguments on the stack, padded to
the number of parameters, and a frame that starts there. -/

namespace Luma.Vm

open Codec
open Stateful (runFrom_bind runFrom_pure runFrom_get runFrom_set runFrom_modify runFrom_map runFrom_throw)

variable {V N W α : Type} {s : State V W} {below : List V} {v : V}

/-! ## The stack -/

/-- The computation raises an error and leaves the frames as given. -/
def RaisesWith (m : Exec V N W α) (s : State V W) (frames : List (CallFrame V)) : Prop :=
  ∃ e s', m.runFrom s = (.error (.raised e), s') ∧ s'.frames = frames

theorem RaisesWith.bind {β : Type} {m : Exec V N W β} {k : β → Exec V N W α} {frames : List (CallFrame V)}
    (h : RaisesWith m s frames) : RaisesWith (m >>= k) s frames := by
  obtain ⟨e, s', hrun, hframes⟩ := h
  exact ⟨e, s', by simp only [runFrom_bind, hrun], hframes⟩

/-- Go on after a computation that ended with a value. -/
theorem RaisesWith.after {β : Type} {m : Exec V N W β} {k : β → Exec V N W α} {x : β} {t : State V W}
    {frames : List (CallFrame V)} (hrun : m.runFrom s = (.ok x, t)) (h : RaisesWith (k x) t frames) :
    RaisesWith (m >>= k) s frames := by
  obtain ⟨e, s', hraise, hframes⟩ := h
  refine ⟨e, s', ?_, hframes⟩
  simp only [runFrom_bind, hrun]
  exact hraise

theorem raise_raisesWith {e : Raised V} : RaisesWith (raise e : Exec V N W α) s s.frames :=
  ⟨e, s, rfl, rfl⟩

theorem run_bind {β : Type} {m : Exec V N W β} {k : β → Exec V N W α} {x : β} {t : State V W}
    (hrun : m.runFrom s = (.ok x, t)) : (m >>= k).runFrom s = (k x).runFrom t := by
  simp only [runFrom_bind, hrun]

theorem pop_run (hstack : s.stack = v :: below) :
    (pop : Exec V N W V).runFrom s = (.ok v, { s with stack := below }) := by
  simp only [pop, runFrom_bind, runFrom_get, hstack, runFrom_set, runFrom_pure]

theorem peek_run {n : Nat} (hstack : s.stack[n]? = some v) :
    (peek n : Exec V N W V).runFrom s = (.ok v, s) := by
  simp only [peek, runFrom_bind, runFrom_get, hstack, runFrom_pure]

theorem popSequence_run (vs : List V) {s : State V W} (hstack : s.stack = vs.reverse ++ below) :
    (popSequence vs.length : Exec V N W (List V)).runFrom s = (.ok vs, { s with stack := below }) := by
  induction vs using List.reverseRecOn generalizing s with
  | nil =>
    cases s
    cases hstack
    rfl
  | append_singleton vs v ih =>
    rw [List.reverse_append, List.reverse_singleton, List.singleton_append, List.cons_append] at hstack
    rw [List.length_append, List.length_singleton, popSequence, run_bind (pop_run hstack),
      run_bind (ih rfl), runFrom_pure]

theorem popPairs_run (pairs : List (V × V)) {s : State V W}
    (hstack : s.stack = (pairs.flatMap fun p => [p.1, p.2]).reverse ++ below) :
    (popPairs pairs.length : Exec V N W (List (V × V))).runFrom s =
      (.ok pairs, { s with stack := below }) := by
  induction pairs using List.reverseRecOn generalizing s with
  | nil =>
    cases s
    cases hstack
    rfl
  | append_singleton pairs p ih =>
    have htop : s.stack = p.2 :: p.1 :: ((pairs.flatMap fun p => [p.1, p.2]).reverse ++ below) := by
      simpa using hstack
    rw [List.length_append, List.length_singleton, popPairs, run_bind (pop_run htop), run_bind (pop_run rfl),
      run_bind (ih rfl), runFrom_pure]

/-- Pushing values either does that or overflows the stack. -/
theorem pushAll_run (vs : List V) (s : State V W) :
    (pushAll vs : Exec V N W Unit).runFrom s = (.ok (), { s with stack := vs.reverse ++ s.stack }) ∨
      maxStack < s.stack.length + vs.length ∧ RaisesWith (pushAll vs : Exec V N W Unit) s s.frames := by
  induction vs generalizing s with
  | nil => exact Or.inl rfl
  | cons v vs ih =>
    by_cases hfull : maxStack ≤ s.stack.length
    · have hpush : (push v : Exec V N W Unit).runFrom s =
          (.error (.raised (.error "stack overflow" none)), s) := by
        simp only [push, runFrom_bind, runFrom_get, if_pos hfull]
        rfl
      exact Or.inr ⟨by rw [List.length_cons]; omega, RaisesWith.bind ⟨_, s, hpush, rfl⟩⟩
    · have hpush : (push v : Exec V N W Unit).runFrom s = (.ok (), { s with stack := v :: s.stack }) := by
        simp only [push, runFrom_bind, runFrom_get, if_neg hfull, runFrom_set]
      rcases ih { s with stack := v :: s.stack } with hrest | ⟨hover, hraises⟩
      · left
        rw [pushAll, run_bind hpush, hrest, List.reverse_cons, List.append_assoc, List.singleton_append]
      · right
        rw [List.length_cons] at hover
        exact ⟨by rw [List.length_cons]; omega, RaisesWith.after hpush hraises⟩

/-! ## Operands -/

variable (rt : Runtime V N W)

/-- A byte that is there is read, and the frame is behind it. -/
theorem readByte_run {cf : CallFrame V} {rest : List (CallFrame V)} {byte : UInt8}
    (hframes : s.frames = cf :: rest)
    (hbyte : (rt.function cf.function).chunk.code[cf.ip]? = some byte) :
    (readByte rt).runFrom s =
      (.ok byte.toNat, { s with frames := { cf with ip := cf.ip + 1 } :: rest }) := by
  obtain ⟨hlt, -⟩ := List.getElem?_eq_some_iff.mp hbyte
  have hframe : (currentFrame : Exec V N W (CallFrame V)).runFrom s = (.ok cf, s) := by
    simp only [currentFrame, runFrom_bind, runFrom_get, hframes, runFrom_pure]
  have hfits : ¬ (rt.function cf.function).chunk.code.length < cf.ip + 1 := by omega
  have havailable : (ensureOperands rt 1).runFrom s = (.ok (), s) := by
    have hfunc : (currentFunction rt).runFrom s = (.ok (rt.function cf.function), s) := by
      rw [currentFunction, run_bind hframe, runFrom_pure]
    rw [ensureOperands, run_bind hfunc]
    split
    · rfl
    · rw [ensureBytecodeAvailable, run_bind hframe, if_neg hfits, runFrom_pure]
  have hset : (setIp (cf.ip + 1) : Exec V N W Unit).runFrom s =
      (.ok (), { s with frames := { cf with ip := cf.ip + 1 } :: rest }) := by
    simp only [setIp, runFrom_modify, hframes]
  rw [readByte, run_bind havailable, nextByte, run_bind hframe]
  simp only [hbyte]
  rw [run_bind hset, runFrom_pure]

/-! ## Calls -/

/-- The state in a function that was entered with the values of its parameters. -/
def enteredState (id : FunctionId) (callee : V) (slots : List V)
    (frames : List (CallFrame V)) (below : List V) (s : State V W) : State V W :=
  { s with
    stack := slots.reverse ++ callee :: below
    frames := {
      function := id
      closure := (some callee).filter fun v => match rt.callee v with
        | .function _ => true
        | _ => false
      ip := 0
      slotOffset := below.length } :: frames }

variable {callee : V} {args : List V}

theorem enterFunction_run (id : FunctionId) {slots : List V} (hstack : s.stack = slots.reverse ++ callee :: below) :
    (enterFunction rt id slots.length).runFrom s =
      (.ok (), enteredState rt id callee slots s.frames below s) := by
  have hbase : s.stack.length - slots.length - 1 = below.length := by
    rw [hstack, List.length_append, List.length_reverse, List.length_cons]
    omega
  have hslot : slotAt s.stack below.length = some callee := by
    have hlt : below.length < s.stack.length := by
      rw [hstack, List.length_append, List.length_cons]
      omega
    have hindex : s.stack.length - 1 - below.length = slots.reverse.length := by
      rw [hstack, List.length_append, List.length_cons]
      omega
    rw [slotAt, if_pos hlt, hindex, hstack, List.getElem?_append_right (Nat.le_refl _), Nat.sub_self]
    rfl
  rw [enterFunction, runFrom_modify]
  simp only [hbase, hslot]
  rw [hstack]
  rfl

/-- What keeps a function from being entered, whatever the arguments: the depth of calls, a
    cancellation, or no room for its parameters. -/
def Obstructed (needed : Nat) (s : State V W) : Prop :=
  rt.limits.maxCallDepth ≤ s.frames.length ∨ (rt.isCancelled s.world && s.shields.isEmpty) = true ∨
    maxStack < needed

/-- Are there arguments for all required parameters, and a parameter for each argument? -/
def InRange (func : CompiledFunction) (argCount : Nat) : Prop :=
  func.requiredArity ≤ argCount ∧ argCount ≤ func.arity

theorem prepareArguments_run (func : CompiledFunction) (hstack : s.stack = args.reverse ++ callee :: below) :
    RaisesWith (prepareArguments rt func args.length) s s.frames ∧
        (maxStack < below.length + 1 + func.arity ∨ ¬ InRange func args.length) ∨
      InRange func args.length ∧ (prepareArguments rt func args.length).runFrom s =
        (.ok (), { s with stack :=
          (args ++ List.replicate (func.arity - args.length) rt.none).reverse ++ callee :: below }) := by
  have hlength : s.stack.length = args.length + (below.length + 1) := by
    rw [hstack, List.length_append, List.length_reverse, List.length_cons]
  rw [prepareArguments]
  by_cases hfew : args.length < func.requiredArity
  · rw [if_pos hfew]
    exact Or.inl ⟨raise_raisesWith, Or.inr fun h => Nat.not_le.mpr hfew h.1⟩
  rw [if_neg hfew]
  rcases pushAll_run (N := N) (List.replicate (func.arity - args.length) rt.none) s with hpush | ⟨hover, hpush⟩
  · by_cases hmany : func.arity < args.length
    · refine Or.inl ⟨RaisesWith.after hpush ?_, Or.inr fun h => Nat.not_le.mpr hmany h.2⟩
      rw [if_pos hmany]
      exact raise_raisesWith
    · refine Or.inr ⟨⟨Nat.not_lt.mp hfew, Nat.not_lt.mp hmany⟩, ?_⟩
      rw [run_bind hpush, if_neg hmany, runFrom_pure, hstack, List.reverse_append, List.append_assoc]
  · refine Or.inl ⟨RaisesWith.bind hpush, ?_⟩
    rw [List.length_replicate, hlength] at hover
    by_cases hmany : func.arity < args.length
    · exact Or.inr fun h => Nat.not_le.mpr hmany h.2
    · left
      omega

/-- A call with arguments in the range of the function enters it with the arguments
    padded, unless something obstructs it; outside the range it raises. -/
theorem callFunction_run (id : FunctionId) (hstack : s.stack = args.reverse ++ callee :: below) :
    RaisesWith (callFunction rt id args.length) s s.frames ∧
        (Obstructed rt (below.length + 1 + (rt.function id).arity) s ∨
          ¬ InRange (rt.function id) args.length) ∨
      InRange (rt.function id) args.length ∧ (callFunction rt id args.length).runFrom s =
        (.ok (), enteredState rt id callee
          (args ++ List.replicate ((rt.function id).arity - args.length) rt.none) s.frames below s) := by
  by_cases hdepth : rt.limits.maxCallDepth ≤ s.frames.length
  · have hdeep : RaisesWith (validateCallDepth rt) s s.frames := by
      refine RaisesWith.after (t := s) (x := s) rfl ?_
      rw [if_pos hdepth]
      exact raise_raisesWith
    exact Or.inl ⟨RaisesWith.bind hdeep, Or.inl (Or.inl hdepth)⟩
  have hvalid : (validateCallDepth rt).runFrom s = (.ok (), s) := by
    simp only [validateCallDepth, runFrom_bind, runFrom_get, if_neg hdepth, runFrom_pure]
  by_cases hcancelled : (rt.isCancelled s.world && s.shields.isEmpty) = true
  · have hstopped : RaisesWith (checkCancellation rt) s s.frames := by
      refine RaisesWith.after (t := s) (x := s) rfl ?_
      rw [if_pos hcancelled]
      exact raise_raisesWith
    exact Or.inl ⟨RaisesWith.after hvalid (RaisesWith.bind hstopped), Or.inl (Or.inr (Or.inl hcancelled))⟩
  have hlive : (checkCancellation rt).runFrom s = (.ok (), s) := by
    simp only [checkCancellation, runFrom_bind, runFrom_get, if_neg hcancelled, runFrom_pure]
  rcases prepareArguments_run rt (rt.function id) hstack with ⟨hraises, hwhy⟩ | ⟨hrange, hrun⟩
  · refine Or.inl ⟨RaisesWith.after hvalid (RaisesWith.after hlive (RaisesWith.bind hraises)), ?_⟩
    exact hwhy.imp (fun hroom => Or.inr (Or.inr hroom)) fun hout => hout
  · refine Or.inr ⟨hrange, ?_⟩
    have hslots : (args ++ List.replicate ((rt.function id).arity - args.length) rt.none).length =
        (rt.function id).arity := by
      rw [List.length_append, List.length_replicate]
      exact Nat.add_sub_of_le hrange.2
    have henter := enterFunction_run rt id
      (s := { s with stack := (args ++ List.replicate ((rt.function id).arity - args.length) rt.none).reverse ++
        callee :: below }) rfl
    rw [hslots] at henter
    rw [callFunction, run_bind hvalid, run_bind hlive, run_bind hrun, henter]
    rfl

end Luma.Vm
