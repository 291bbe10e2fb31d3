-- SUMMARY: Executing an instruction changes control only as the relation says.
import Luma.Vm.Control

/-! # Effects

The triple of each handler over control. Operations on values move nothing but the
height of the stack; operand readers move nothing but the instruction pointer. -/

namespace Luma.Vm

open Codec Stateful

variable {V N W α β : Type}

/-! ## Operations on values -/

/-- An error that was raised after at most `pops` values were popped. -/
def RaisedAbove (c : Control) (pops : Nat) : Exit V N → State V W → Prop
  | .raised _, s => ∃ height, c.height - pops ≤ height ∧ Has (c.withHeight height) s
  | _, _ => False

/-- In a frame, `m` pops and pushes, and leaves the rest of control as it is. -/
def Moves (pops pushes : Nat) (m : Exec V N W α) : Prop :=
  ∀ c : Control, c.frames ≠ [] → Triple (Has c) m
    (fun _ s => pops ≤ c.height ∧ Has (c.withHeight (c.height - pops + pushes)) s)
    (RaisedAbove c pops)

namespace Moves

variable {m : Exec V N W α} {f : α → Exec V N W β} {a b p q : Nat}

theorem pure {x : α} : Moves 0 0 (Pure.pure x : Exec V N W α) :=
  fun _ _ => Triple.pure.weaken_pre fun _ hs => ⟨Nat.zero_le _, hs⟩

theorem raise {e : Raised V} : Moves a b (raise e : Exec V N W α) := by
  intro c _
  refine Triple.throw.weaken_pre fun s hs => ?_
  exact ⟨c.height, Nat.sub_le _ _, hs⟩

theorem runtimeError {message : ErrorMessage} : Moves a b (runtimeError message : Exec V N W α) :=
  raise

theorem bind (hm : Moves a b m) (hf : ∀ x, Moves p q (f x)) :
    Moves (a + (p - b)) (q + (b - p)) (m >>= f) := by
  intro c hc
  refine Triple.bind (Q := fun _ s => a ≤ c.height ∧ Has (c.withHeight (c.height - a + b)) s)
    ((hm c hc).conseq (fun _ hs => hs) (fun _ _ hs => hs) ?_) ?_
  · intro e s hs
    cases e <;> try exact hs
    obtain ⟨height, hle, hs⟩ := hs
    exact ⟨height, by omega, hs⟩
  · intro x s hs
    obtain ⟨hpops, hs⟩ := hs
    refine ((hf x (c.withHeight (c.height - a + b)) hc).conseq (fun _ hs => hs) ?_ ?_) s hs
    · intro y t ht
      obtain ⟨hpops', ht⟩ := ht
      simp only [Control.height_withHeight, Control.withHeight_withHeight] at hpops' ht
      refine ⟨by omega, ?_⟩
      rw [show c.height - (a + (p - b)) + (q + (b - p)) = c.height - a + b - p + q by omega]
      exact ht
    · intro e t ht
      cases e <;> try exact ht
      obtain ⟨height, hle, ht⟩ := ht
      simp only [Control.height_withHeight] at hle
      exact ⟨height, by omega, ht⟩

theorem cast (hm : Moves a b m) (hpops : a = p) (hpushes : b = q) : Moves p q m := by
  subst hpops hpushes
  exact hm

theorem ite {cond : Prop} [Decidable cond] {m' : Exec V N W α} (hthen : cond → Moves a b m)
    (helse : ¬ cond → Moves a b m') : Moves a b (if cond then m else m') := by
  intro c hc
  exact Triple.ite (fun hcond => hthen hcond c hc) (fun hcond => helse hcond c hc)

/-- Continue from the state as it is. -/
theorem get_bind {k : State V W → Exec V N W β}
    (hk : ∀ s, s.control.frames ≠ [] → Triple (· = s) (k s)
      (fun _ t => a ≤ s.stack.length ∧ Has (s.control.withHeight (s.stack.length - a + b)) t)
      (RaisedAbove s.control a)) :
    Moves a b (get >>= k) := by
  intro c hc
  refine Triple.bind (Q := fun s t => t = s ∧ Has c t) (Triple.get.weaken_pre fun _ hs => ⟨rfl, hs⟩) ?_
  intro s t ht
  obtain ⟨rfl, ht⟩ := ht
  cases ht
  exact hk t hc t rfl

theorem modify {g : State V W → State V W} (hg : ∀ s, (g s).control = s.control) :
    Moves 0 0 (modify g : Exec V N W PUnit) := by
  intro c _
  refine Triple.modify.weaken_pre ?_
  intro s hs
  exact ⟨Nat.zero_le _, (hg s).trans hs⟩

theorem from_state {s : State V W} (hm : Moves a b m) (hframes : s.control.frames ≠ []) :
    Triple (· = s) m (fun _ t => a ≤ s.stack.length ∧ Has (s.control.withHeight (s.stack.length - a + b)) t)
      (RaisedAbove s.control a) :=
  (hm s.control hframes).weaken_pre fun _ ht => ht ▸ rfl

end Moves

/-- Continue from a state with a given control. -/
theorem get_bind_has {c : Control} {k : State V W → Exec V N W β} {Q : β → State V W → Prop}
    {E : Exit V N → State V W → Prop} (hk : ∀ s, Has c s → Triple (· = s) (k s) Q E) :
    Triple (Has c) (get >>= k) Q E := by
  refine Triple.bind (Q := fun s t => t = s ∧ Has c t) (Triple.get.weaken_pre fun _ hs => ⟨rfl, hs⟩) ?_
  rintro s t ⟨rfl, ht⟩
  exact hk t ht t rfl

theorem raise_has {c : Control} {e : Raised V} {a : Nat} {Q : α → State V W → Prop} :
    Triple (Has c) (raise e : Exec V N W α) Q (RaisedAbove c a) := by
  refine Triple.throw.weaken_pre fun s hs => ?_
  exact ⟨c.height, Nat.sub_le _ _, hs⟩

/-- An error raised in a state. -/
theorem raise_above {s : State V W} {e : Raised V} {pops : Nat} {Q : α → State V W → Prop} :
    Triple (· = s) (raise e : Exec V N W α) Q (RaisedAbove s.control pops) := by
  refine Triple.throw.weaken_pre fun t ht => ?_
  cases ht
  exact ⟨s.control.height, Nat.sub_le _ _, rfl⟩

theorem push_has {c : Control} {v : V} : Triple (Has c) (push v : Exec V N W Unit)
    (fun _ s => c.height < maxStack ∧ Has (c.withHeight (c.height + 1)) s)
    (fun e s => e.ending = .raised ∧ maxStack ≤ c.height ∧ Has c s) := by
  refine get_bind_has fun s hs => Triple.ite (fun hfull => ?_) (fun hspace => ?_)
  · rintro t rfl
    cases hs
    exact ⟨rfl, hfull, rfl⟩
  · rintro t rfl
    cases hs
    exact ⟨Nat.not_le.mp hspace, rfl⟩

theorem push_moves {v : V} : Moves 0 1 (push v : Exec V N W Unit) := by
  intro c _
  refine Triple.conseq push_has (fun _ hs => hs) (fun _ _ hs => ⟨Nat.zero_le _, hs.2⟩) ?_
  rintro e s ⟨hraised, -, hs⟩
  cases e <;> try cases hraised
  exact ⟨c.height, Nat.sub_le _ _, hs⟩

theorem pop_moves : Moves 1 0 (pop : Exec V N W V) := by
  refine Moves.get_bind fun s hframes => ?_
  split
  · exact raise_above
  next v stack hstack =>
    intro t _
    refine ⟨?_, ?_⟩ <;> simp [Has, State.control, Control.withHeight, hstack]

theorem popSequence_moves : (n : Nat) → Moves n 0 (popSequence n : Exec V N W (List V))
  | 0 => Moves.pure
  | n + 1 =>
    (Moves.bind pop_moves fun _ => (popSequence_moves n).bind fun _ => Moves.pure).cast (by omega) (by omega)

theorem pushAll_moves : (vs : List V) → Moves 0 vs.length (pushAll vs : Exec V N W Unit)
  | [] => Moves.pure
  | _ :: vs => (Moves.bind push_moves fun _ => pushAll_moves vs).cast (by omega) (by simp)

theorem pushAll_push_moves (vs : List V) (v : V) : Moves 0 (vs.length + 1)
    (do pushAll vs; push v : Exec V N W Unit) :=
  ((pushAll_moves vs).bind fun _ => push_moves).cast (by omega) (by omega)

theorem peek_moves {distance : Nat} :
    Moves (distance + 1) (distance + 1) (peek distance : Exec V N W V) := by
  refine Moves.get_bind fun s hframes => ?_
  dsimp only
  split
  next v hvalue =>
    obtain ⟨hlt, -⟩ := List.getElem?_eq_some_iff.mp hvalue
    intro t ht
    cases ht
    refine ⟨hlt, ?_⟩
    rw [Nat.sub_add_cancel hlt]
    rfl
  · exact raise_above

theorem setTop_moves {v : V} : Moves 0 0 (setTop v : Exec V N W Unit) := by
  refine Moves.modify fun s => ?_
  simp [State.control]

theorem validateStackSpace_moves {needed : Nat} :
    Moves 0 0 (validateStackSpace needed : Exec V N W Unit) := by
  refine Moves.get_bind fun s hframes => Triple.ite (fun _ => raise_above) (fun _ => ?_)
  intro t ht
  cases ht
  exact ⟨Nat.zero_le _, rfl⟩

theorem validateStackDepth_moves {required : Nat} {context : String} :
    Moves required required (validateStackDepth required context : Exec V N W Unit) := by
  refine Moves.get_bind fun s hframes => Triple.ite (fun _ => raise_above) (fun hdepth => ?_)
  intro t ht
  cases ht
  refine ⟨Nat.not_lt.mp hdepth, ?_⟩
  rw [Nat.sub_add_cancel (Nat.not_lt.mp hdepth)]
  rfl

section

variable {rt : Runtime V N W}

theorem currentFrame_moves : Moves 0 0 (currentFrame : Exec V N W (CallFrame V)) := by
  refine Moves.get_bind fun s hframes => ?_
  split
  · intro t ht
    cases ht
    exact ⟨Nat.zero_le _, rfl⟩
  next hnil => exact absurd (congrArg (List.map CallFrame.position) hnil) hframes

theorem compute_moves {op : Op} {operands : List Nat} {values : List V} :
    Moves 0 0 (compute rt op operands values) := by
  refine (Moves.bind currentFrame_moves fun cf => Moves.get_bind (a := 0) (b := 0) fun s hframes => ?_).cast rfl rfl
  dsimp only
  refine Triple.bind (Q := fun _ t => Has s.control t) (fun _ _ => rfl) fun _ => ?_
  split
  · exact Triple.pure.weaken_pre fun _ ht => ⟨Nat.zero_le _, ht⟩
  · exact Moves.raise s.control hframes

theorem replaceTop_moves {op : Op} {operands : List Nat} {count : Nat} :
    Moves count 1 (replaceTop rt op operands count) :=
  ((popSequence_moves count).bind fun _ => Moves.bind compute_moves fun _ => push_moves).cast
    (by omega) (by omega)

theorem inPlace_moves {op : Op} {operands : List Nat} {context : String} :
    Moves 1 1 (inPlace rt op operands context) :=
  (Moves.bind validateStackDepth_moves fun _ => Moves.bind peek_moves fun _ => Moves.bind compute_moves fun _ =>
    setTop_moves).cast (by omega) (by omega)

theorem binary_moves {op : Op} : Moves 2 1 (binary rt op) := by
  refine (Moves.bind pop_moves fun right => Moves.get_bind (a := 1) (b := 1) fun s hframes => ?_).cast rfl rfl
  split
  · exact raise_above
  · exact Moves.from_state ((Moves.bind peek_moves fun _ => Moves.bind compute_moves fun _ => setTop_moves).cast
      rfl rfl) hframes

theorem produce_moves {op : Op} {operands : List Nat} : Moves 0 1 (produce rt op operands) :=
  (Moves.bind compute_moves fun _ => push_moves).cast rfl rfl

theorem store_moves {op : Op} {operands : List Nat} : Moves 1 1 (store rt op operands) :=
  (Moves.bind peek_moves fun _ => Moves.bind compute_moves fun _ => Moves.pure).cast rfl rfl

theorem getLocalSlot_moves {slot : Nat} : Moves 0 0 (getLocalSlot slot : Exec V N W V) := by
  refine (Moves.bind currentFrame_moves fun cf => Moves.get_bind (a := 0) (b := 0) fun s hframes => ?_).cast rfl rfl
  split
  · exact Triple.pure.weaken_pre fun t ht => ⟨Nat.zero_le _, ht ▸ rfl⟩
  · exact raise_above

theorem setLocalSlot_moves {slot : Nat} {v : V} :
    Moves 0 0 (setLocalSlot slot v : Exec V N W Unit) := by
  refine (Moves.bind getLocalSlot_moves fun _ => Moves.bind currentFrame_moves fun _ => Moves.modify ?_).cast rfl rfl
  intro s
  simp [State.control, setSlotAt]

theorem makeLocalExclusive_moves {slot : Nat} : Moves 0 0 (makeLocalExclusive rt slot) := by
  refine (Moves.bind getLocalSlot_moves fun value => Moves.get_bind (a := 0) (b := 0) fun s hframes => ?_).cast
    rfl rfl
  refine Triple.bind (Q := fun _ t => Has s.control t) (fun _ _ => rfl) fun _ => ?_
  exact setLocalSlot_moves s.control hframes

theorem iterate_moves {op : Op} {iterator : V} : Moves 0 0 (iterate rt op iterator) := by
  refine Moves.get_bind fun s hframes => ?_
  dsimp only
  refine Triple.bind (Q := fun _ t => Has s.control t) (fun _ _ => rfl) fun _ => ?_
  split
  · exact Moves.pure s.control hframes
  · exact Moves.raise s.control hframes

theorem checkCancellation_moves : Moves 0 0 (checkCancellation rt) := by
  refine Moves.get_bind fun s hframes => Triple.ite (fun _ => raise_above) (fun _ => ?_)
  exact Moves.pure.from_state hframes

theorem countIteration_moves : Moves 0 0 (countIteration rt) := by
  refine Moves.cast (Moves.bind (Moves.modify ?_) fun _ =>
    Moves.get_bind (a := 0) (b := 0) fun s hframes => ?_) rfl rfl
  · exact fun _ => rfl
  refine Triple.ite (fun _ => ?_) (fun _ => ?_)
  · refine Moves.from_state (Moves.cast (Moves.bind (Moves.modify ?_) fun _ =>
      Moves.runtimeError (a := 0) (b := 0)) rfl rfl) hframes
    exact fun _ => rfl
  · refine Moves.from_state (Moves.cast (Moves.bind (Moves.modify ?_) fun _ =>
      Moves.get_bind (a := 0) (b := 0) fun t ht => ?_) rfl rfl) hframes
    · exact fun _ => rfl
    · refine Triple.ite (fun _ => raise_above) fun _ => ?_
      exact Moves.pure.from_state ht

/-! ## Operands -/

/-- How the instruction `op`, fetched at `offset`, may stop the dispatch loop. -/
def Stops (rt : Runtime V N W) (op : Op) (offset : Nat) (p : FramePosition)
    (rest : List FramePosition) (c : Control) : Exit V N → State V W → Prop :=
  fun e s => Executes rt op offset p rest c e.ending s.control

section

variable {op : Op} {offset ip : Nat} {p : FramePosition} {rest : List FramePosition} {c : Control}
  {Q : β → State V W → Prop}

theorem currentFrame_has (hframes : c.frames = p :: rest) :
    Triple (Has (c.moveTo ip)) (currentFrame : Exec V N W (CallFrame V))
      (fun cf s => Has (c.moveTo ip) s ∧ cf.function = p.function ∧ cf.ip = ip ∧
        cf.slotOffset = p.slotOffset)
      (fun _ _ => False) := by
  intro s hs
  have hmap := congrArg Control.frames hs
  rw [Control.frames_moveTo hframes] at hmap
  obtain ⟨cf, frames, hcons, hcf, -⟩ := List.map_eq_cons_iff.mp hmap
  rw [currentFrame, runFrom_bind, runFrom_get]
  simp only [hcons, runFrom_pure]
  exact ⟨hs, congrArg FramePosition.function hcf, congrArg FramePosition.ip hcf,
    congrArg FramePosition.slotOffset hcf⟩

/-- Continue with the current frame. -/
theorem currentFrame_bind {k : CallFrame V → Exec V N W β} {E : Exit V N → State V W → Prop}
    (hframes : c.frames = p :: rest)
    (hk : ∀ cf : CallFrame V, cf.function = p.function → cf.ip = ip → cf.slotOffset = p.slotOffset →
      Triple (Has (c.moveTo ip)) (k cf) Q E) :
    Triple (Has (c.moveTo ip)) (currentFrame >>= k) Q E := by
  refine Triple.bind ((currentFrame_has hframes).conseq (fun _ hs => hs) (fun _ _ hs => hs)
    (fun _ _ h => h.elim)) fun cf => ?_
  intro s hs
  obtain ⟨hs, hfunction, hip, hslot⟩ := hs
  exact hk cf hfunction hip hslot s hs

theorem setIp_has {target : Nat} {E : Exit V N → State V W → Prop} :
    Triple (Has c) (setIp target : Exec V N W Unit) (fun _ => Has (c.moveTo target)) E := by
  refine Triple.modify.weaken_pre fun s hs => ?_
  cases hs
  cases s with
  | mk stack frames => cases frames <;> rfl

theorem setIp_moved {target : Nat} {E : Exit V N → State V W → Prop} :
    Triple (Has (c.moveTo ip)) (setIp target : Exec V N W Unit) (fun _ => Has (c.moveTo target)) E := by
  have hset : Triple (Has (c.moveTo ip)) (setIp target : Exec V N W Unit) _ E := setIp_has
  rw [Control.moveTo_moveTo] at hset
  exact hset

theorem nextByte_has {E : Exit V N → State V W → Prop} (hframes : c.frames = p :: rest)
    (hlt : ip < (rt.function p.function).chunk.code.length) :
    Triple (Has (c.moveTo ip)) (nextByte rt)
      (fun v s => v = (byteAt (rt.function p.function).chunk.code ip).toNat ∧ Has (c.moveTo (ip + 1)) s)
      E := by
  refine currentFrame_bind hframes fun cf hfunction hip _ => ?_
  rw [hfunction, hip, List.getElem?_eq_getElem hlt]
  refine Triple.bind setIp_moved fun _ => Triple.pure.weaken_pre fun s hs => ⟨?_, hs⟩
  rw [byteAt, List.getD_eq_getElem _ _ hlt]

theorem nextByte_bind {k : Nat → Exec V N W β} {limit : Nat} (hframes : c.frames = p :: rest)
    (hlimit : limit ≤ offset + instructionSizeOf op (rt.function p.function).chunk.code offset)
    (hip : ip < limit)
    (hchecked : (rt.function p.function).verified = true ∨
      limit ≤ (rt.function p.function).chunk.code.length)
    (hk : ip < (rt.function p.function).chunk.code.length →
      Triple (Has (c.moveTo (ip + 1))) (k (byteAt (rt.function p.function).chunk.code ip).toNat) Q
        (Stops rt op offset p rest c)) :
    Triple (Has (c.moveTo ip)) (nextByte rt >>= k) Q (Stops rt op offset p rest c) := by
  by_cases hlt : ip < (rt.function p.function).chunk.code.length
  · refine Triple.bind (nextByte_has hframes hlt) fun v => ?_
    rintro s ⟨rfl, hs⟩
    exact hk hlt s hs
  · rw [nextByte, bind_assoc]
    refine currentFrame_bind hframes fun cf hfunction hcf _ => ?_
    rw [hfunction, hcf, List.getElem?_eq_none (Nat.not_lt.mp hlt)]
    refine Triple.throw.weaken_pre fun s _ => ?_
    refine Executes.overruns (hchecked.resolve_right (by omega)) fun hfit => ?_
    have := hfit.1
    omega

theorem raise_stops_from {e : Raised V} {h : Nat} {Q : α → State V W → Prop}
    (hlow : c.height - (runEffectOf op (rt.function p.function).chunk.code offset).pops ≤ h) :
    Triple (Has ((c.moveTo ip).withHeight h)) (raise e : Exec V N W α) Q
      (Stops rt op offset p rest c) := by
  refine Triple.throw.weaken_pre fun s hs => ?_
  rw [Stops, show s.control = (c.moveTo ip).withHeight h from hs]
  exact Executes.raises hlow

theorem RaisedAbove.stops {e : Exit V N} {s : State V W} (hraised : RaisedAbove (c.moveTo ip) 0 e s) :
    Stops rt op offset p rest c e s := by
  cases e <;> try exact hraised.elim
  obtain ⟨height, hle, hs⟩ := hraised
  rw [Stops, show s.control = (c.moveTo ip).withHeight height from hs]
  exact Executes.raises ((Nat.sub_le _ _).trans hle)

theorem raise_stops {e : Raised V} {Q : α → State V W → Prop} :
    Triple (Has (c.moveTo ip)) (raise e : Exec V N W α) Q (Stops rt op offset p rest c) :=
  raise_stops_from (h := c.height) (Nat.sub_le _ _)

/-- Continue after the check that the operands are there, or without it. -/
theorem ensureOperands_bind {k : Unit → Exec V N W β} {count : Nat} (hframes : c.frames = p :: rest)
    (hk : (rt.function p.function).verified = true ∨
        ip + count ≤ (rt.function p.function).chunk.code.length →
      Triple (Has (c.moveTo ip)) (k ⟨⟩) Q (Stops rt op offset p rest c)) :
    Triple (Has (c.moveTo ip)) (ensureOperands rt count >>= k) Q (Stops rt op offset p rest c) := by
  rw [ensureOperands, bind_assoc, currentFunction, bind_assoc]
  refine currentFrame_bind hframes fun cf hfunction _ _ => ?_
  rw [hfunction, pure_bind]
  cases hverified : (rt.function p.function).verified with
  | true => exact hk (Or.inl hverified)
  | false =>
    simp only [Bool.false_eq_true, if_false, ensureBytecodeAvailable, bind_assoc]
    refine currentFrame_bind hframes fun cf' hfunction' hip' _ => ?_
    rw [hfunction', hip']
    by_cases hend : (rt.function p.function).chunk.code.length < ip + count
    · rw [if_pos hend]
      exact Triple.bind (Q := fun _ _ => False) raise_stops fun _ _ h => h.elim
    · rw [if_neg hend, pure_bind]
      exact hk (Or.inr (Nat.not_lt.mp hend))

theorem readByte_bind {k : Nat → Exec V N W β} (hframes : c.frames = p :: rest)
    (hsize : ip + 1 ≤ offset + instructionSizeOf op (rt.function p.function).chunk.code offset)
    (hk : ip + 1 ≤ (rt.function p.function).chunk.code.length →
      Triple (Has (c.moveTo (ip + 1))) (k (byteAt (rt.function p.function).chunk.code ip).toNat) Q
        (Stops rt op offset p rest c)) :
    Triple (Has (c.moveTo ip)) (readByte rt >>= k) Q (Stops rt op offset p rest c) := by
  rw [readByte, bind_assoc]
  refine ensureOperands_bind hframes fun hchecked => ?_
  exact nextByte_bind hframes hsize (Nat.lt_succ_self ip) hchecked hk

theorem readU16_bind {k : Nat → Exec V N W β} (hframes : c.frames = p :: rest)
    (hsize : ip + 2 ≤ offset + instructionSizeOf op (rt.function p.function).chunk.code offset)
    (hk : ip + 2 ≤ (rt.function p.function).chunk.code.length →
      Triple (Has (c.moveTo (ip + 2))) (k (readU16At (rt.function p.function).chunk.code ip)) Q
        (Stops rt op offset p rest c)) :
    Triple (Has (c.moveTo ip)) (readU16 rt >>= k) Q (Stops rt op offset p rest c) := by
  rw [readU16]
  simp only [bind_assoc, pure_bind]
  refine ensureOperands_bind hframes fun hchecked => ?_
  refine nextByte_bind hframes hsize (by omega) hchecked fun _ => ?_
  exact nextByte_bind hframes hsize (by omega) hchecked hk

theorem readU32_bind {k : Nat → Exec V N W β} (hframes : c.frames = p :: rest)
    (hsize : ip + 4 ≤ offset + instructionSizeOf op (rt.function p.function).chunk.code offset)
    (hk : ip + 4 ≤ (rt.function p.function).chunk.code.length →
      Triple (Has (c.moveTo (ip + 4))) (k (readU32At (rt.function p.function).chunk.code ip)) Q
        (Stops rt op offset p rest c)) :
    Triple (Has (c.moveTo ip)) (readU32 rt >>= k) Q (Stops rt op offset p rest c) := by
  rw [readU32]
  simp only [bind_assoc, pure_bind]
  refine ensureOperands_bind hframes fun hchecked => ?_
  refine nextByte_bind hframes hsize (by omega) hchecked fun _ => ?_
  refine nextByte_bind hframes hsize (by omega) hchecked fun _ => ?_
  refine nextByte_bind hframes hsize (by omega) hchecked fun _ => ?_
  exact nextByte_bind hframes hsize (by omega) hchecked hk

/-! ## Instructions that stay in their frame -/

theorem Moves.conseq_has {m : Exec V N W α} {a b h : Nat} (hm : Moves a b m)
    (hframes : c.frames = p :: rest)
    (hlow : c.height - (runEffectOf op (rt.function p.function).chunk.code offset).pops ≤ h - a) :
    Triple (Has ((c.moveTo ip).withHeight h)) m
      (fun _ s => a ≤ h ∧ Has ((c.moveTo ip).withHeight (h - a + b)) s)
      (Stops rt op offset p rest c) := by
  have hnonempty : ((c.moveTo ip).withHeight h).frames ≠ [] := by
    rw [Control.frames_withHeight, Control.frames_moveTo hframes]
    exact List.cons_ne_nil _ _
  refine (hm _ hnonempty).conseq (fun _ hs => hs) (fun _ _ hs => hs) ?_
  intro e s hs
  cases e <;> try exact hs.elim
  obtain ⟨height', hle, hs⟩ := hs
  rw [Stops, show s.control = (c.moveTo ip).withHeight height' from hs]
  exact Executes.raises (hlow.trans hle)

/-- Go on after an operation on values. -/
theorem Moves.bind_from {m : Exec V N W α} {k : α → Exec V N W β} {a b h : Nat}
    (hm : Moves a b m) (hframes : c.frames = p :: rest)
    (hlow : c.height - (runEffectOf op (rt.function p.function).chunk.code offset).pops ≤ h - a)
    (hk : ∀ x, a ≤ h → Triple (Has ((c.moveTo ip).withHeight (h - a + b))) (k x) Q
      (Stops rt op offset p rest c)) :
    Triple (Has ((c.moveTo ip).withHeight h)) (m >>= k) Q (Stops rt op offset p rest c) := by
  refine Triple.bind (hm.conseq_has hframes hlow) fun x => ?_
  intro s hs
  exact hk x hs.1 s hs.2

/-- The same before anything has been popped. -/
theorem Moves.bind_here {m : Exec V N W α} {k : α → Exec V N W β} {a : Nat} (hm : Moves a a m)
    (hframes : c.frames = p :: rest)
    (ha : a ≤ (runEffectOf op (rt.function p.function).chunk.code offset).pops)
    (hk : ∀ x, a ≤ c.height → Triple (Has (c.moveTo ip)) (k x) Q (Stops rt op offset p rest c)) :
    Triple (Has (c.moveTo ip)) (m >>= k) Q (Stops rt op offset p rest c) := by
  refine hm.bind_from (h := c.height) hframes (Nat.sub_le_sub_left ha _) fun x hle => ?_
  rw [Nat.sub_add_cancel hle]
  exact hk x hle

/-- An operation on values ends the instruction. -/
theorem Moves.stays_from {m : Exec V N W Unit} {a b h : Nat} (hm : Moves a b m)
    (hframes : c.frames = p :: rest)
    (hlow : c.height - (runEffectOf op (rt.function p.function).chunk.code offset).pops ≤ h - a)
    (hedge : a ≤ h →
      (ip, h - a + b) ∈ flowEdges op (rt.function p.function).chunk.code offset c.height) :
    Triple (Has ((c.moveTo ip).withHeight h)) m
      (fun _ s => Executes rt op offset p rest c .done s.control) (Stops rt op offset p rest c) := by
  refine (hm.conseq_has hframes hlow).conseq (fun _ hs => hs) ?_ (fun _ _ hs => hs)
  intro _ s hs
  obtain ⟨ha, hs⟩ := hs
  rw [hs]
  exact Executes.flows (hedge ha)

/-- The same before anything has been popped. -/
theorem Moves.stays {m : Exec V N W Unit} {a b : Nat} (hm : Moves a b m) (hframes : c.frames = p :: rest)
    (hpops : a ≤ (runEffectOf op (rt.function p.function).chunk.code offset).pops)
    (hedge : a ≤ c.height →
      (ip, c.height - a + b) ∈ flowEdges op (rt.function p.function).chunk.code offset c.height) :
    Triple (Has (c.moveTo ip)) m (fun _ s => Executes rt op offset p rest c .done s.control)
      (Stops rt op offset p rest c) :=
  hm.stays_from hframes (Nat.sub_le_sub_left hpops _) hedge

theorem currentFunction_moves : Moves 0 0 (currentFunction rt) :=
  (Moves.bind currentFrame_moves fun _ => Moves.pure).cast rfl rfl

theorem checkedName_moves {index : Nat} : Moves 0 0 (checkedName rt index) :=
  (Moves.bind currentFunction_moves fun _ =>
    Moves.ite (fun _ => Moves.runtimeError) (fun _ => Moves.pure)).cast rfl rfl

theorem readName_bind {k : Nat → Exec V N W β} (hframes : c.frames = p :: rest)
    (hsize : ip + 2 ≤ offset + instructionSizeOf op (rt.function p.function).chunk.code offset)
    (hk : ∀ index, Triple (Has (c.moveTo (ip + 2))) (k index) Q (Stops rt op offset p rest c)) :
    Triple (Has (c.moveTo ip)) (readName rt >>= k) Q (Stops rt op offset p rest c) := by
  rw [readName, bind_assoc]
  refine readU16_bind hframes hsize fun _ => ?_
  rw [bind_assoc]
  refine Moves.bind_here checkedName_moves hframes (Nat.zero_le _) fun _ _ => ?_
  rw [pure_bind]
  exact hk _

theorem readNameIndices_bind {k : List Nat → Exec V N W β} (hframes : c.frames = p :: rest) :
    (count : Nat) → {ip : Nat} →
    (hsize : ip + count * 2 ≤
      offset + instructionSizeOf op (rt.function p.function).chunk.code offset) →
    (hk : ∀ indices, Triple (Has (c.moveTo (ip + count * 2))) (k indices) Q
      (Stops rt op offset p rest c)) →
    Triple (Has (c.moveTo ip)) (readNameIndices rt count >>= k) Q (Stops rt op offset p rest c)
  | 0, _, _, hk => hk []
  | count + 1, ip, hsize, hk => by
    rw [readNameIndices, bind_assoc]
    refine readU16_bind hframes (by omega) fun _ => ?_
    rw [bind_assoc]
    refine readNameIndices_bind hframes count (by omega) fun indices => ?_
    rw [pure_bind, show ip + 2 + count * 2 = ip + (count + 1) * 2 by omega]
    exact hk _

theorem handleConstant_executes (hframes : c.frames = p :: rest) :
    Triple (Has (c.moveTo (offset + 1))) (handleConstant rt)
      (fun _ s => Executes rt .constant offset p rest c .done s.control)
      (Stops rt .constant offset p rest c) := by
  refine readU16_bind hframes le_rfl fun _ => ?_
  rw [currentFunction, bind_assoc]
  refine currentFrame_bind hframes fun cf hfunction _ _ => ?_
  rw [pure_bind, hfunction]
  refine Triple.ite (fun _ => raise_stops) fun hcheck => ?_
  split
  · exact Moves.stays push_moves hframes (Nat.zero_le _) fun _ => List.mem_singleton.mpr rfl
  next hnone =>
    have hindex := List.getElem?_eq_none_iff.mp hnone
    refine Triple.throw.weaken_pre fun s _ => Executes.overruns ?_ fun hfit => ?_
    · simpa [hindex] using hcheck
    · exact absurd (hfit.2 rfl) (Nat.not_lt.mpr hindex)

theorem handleConstantLong_executes (hframes : c.frames = p :: rest) :
    Triple (Has (c.moveTo (offset + 1))) (handleConstantLong rt)
      (fun _ s => Executes rt .constantLong offset p rest c .done s.control)
      (Stops rt .constantLong offset p rest c) := by
  refine readU32_bind hframes le_rfl fun _ => ?_
  rw [currentFunction, bind_assoc]
  refine currentFrame_bind hframes fun cf hfunction _ _ => ?_
  rw [pure_bind, hfunction]
  dsimp only
  split
  · exact Moves.stays push_moves hframes (Nat.zero_le _) fun _ => List.mem_singleton.mpr rfl
  · exact raise_stops

theorem handleMakeRecord_executes (hframes : c.frames = p :: rest) :
    Triple (Has (c.moveTo (offset + 1))) (handleMakeRecord rt)
      (fun _ s => Executes rt .makeRecord offset p rest c .done s.control)
      (Stops rt .makeRecord offset p rest c) := by
  have hbase := instructionSizeOf_ge .makeRecord (rt.function p.function).chunk.code offset
  have hfour : Op.opcodeBaseSize .makeRecord = 4 := rfl
  refine Moves.bind_here validateStackSpace_moves hframes (Nat.zero_le _) fun _ _ => ?_
  refine readU16_bind hframes (by omega) fun _ => ?_
  refine readByte_bind hframes (by omega) fun hend => ?_
  have hsize : instructionSizeOf .makeRecord (rt.function p.function).chunk.code offset =
      4 + (byteAt (rt.function p.function).chunk.code (offset + 1 + 2)).toNat * 2 :=
    if_neg (by omega)
  refine Moves.bind_here checkedName_moves hframes (Nat.zero_le _) fun _ _ => ?_
  refine currentFrame_bind hframes fun cf hfunction hip _ => ?_
  refine Triple.ite (fun _ => raise_stops) fun _ => ?_
  refine Moves.bind_here validateStackDepth_moves hframes le_rfl fun _ _ => ?_
  refine readNameIndices_bind hframes _ (by rw [hsize]; omega) fun names => ?_
  refine Moves.stays replaceTop_moves hframes le_rfl fun _ => ?_
  refine List.mem_singleton.mpr (Prod.ext ?_ rfl)
  rw [hsize]
  omega

theorem handleRecordWith_executes (hframes : c.frames = p :: rest) :
    Triple (Has (c.moveTo (offset + 1))) (handleRecordWith rt)
      (fun _ s => Executes rt .recordWith offset p rest c .done s.control)
      (Stops rt .recordWith offset p rest c) := by
  have hbase := instructionSizeOf_ge .recordWith (rt.function p.function).chunk.code offset
  have htwo : Op.opcodeBaseSize .recordWith = 2 := rfl
  refine readByte_bind hframes (by omega) fun hend => ?_
  have hsize : instructionSizeOf .recordWith (rt.function p.function).chunk.code offset =
      2 + (byteAt (rt.function p.function).chunk.code (offset + 1)).toNat * 2 :=
    if_neg (by omega)
  refine currentFrame_bind hframes fun cf hfunction hip _ => ?_
  refine Triple.ite (fun _ => raise_stops) fun _ => ?_
  refine readNameIndices_bind hframes _ (by rw [hsize]; omega) fun names => ?_
  refine Moves.stays replaceTop_moves hframes le_rfl fun _ => ?_
  refine List.mem_singleton.mpr (Prod.ext ?_ rfl)
  rw [hsize]
  omega

theorem handleMakeClosure_executes (hframes : c.frames = p :: rest) :
    Triple (Has (c.moveTo (offset + 1))) (handleMakeClosure rt)
      (fun _ s => Executes rt .makeClosure offset p rest c .done s.control)
      (Stops rt .makeClosure offset p rest c) := by
  refine readU16_bind hframes (Nat.le_succ _) fun _ => ?_
  refine readByte_bind hframes le_rfl fun _ => ?_
  refine currentFrame_bind hframes fun cf _ _ _ => ?_
  refine Triple.ite (fun _ => raise_stops) fun _ => ?_
  exact Moves.stays produce_moves hframes (Nat.zero_le _) fun _ => List.mem_singleton.mpr rfl

theorem handleInterpolate_executes (hframes : c.frames = p :: rest) :
    Triple (Has (c.moveTo (offset + 1))) (handleInterpolate rt)
      (fun _ s => Executes rt .interpolate offset p rest c .done s.control)
      (Stops rt .interpolate offset p rest c) := by
  refine readByte_bind hframes le_rfl fun _ => ?_
  refine Moves.bind_here validateStackDepth_moves hframes le_rfl fun _ _ => ?_
  exact Moves.stays replaceTop_moves hframes le_rfl fun _ => List.mem_singleton.mpr rfl

theorem dispatchIterStep_executes (hframes : c.frames = p :: rest)
    (hop : op = .forIterStep ∨ op = .forIterStepKV) :
    Triple (Has (c.moveTo (offset + 1))) (dispatchIterStep rt op)
      (fun _ s => Executes rt op offset p rest c .done s.control)
      (Stops rt op offset p rest c) := by
  have hpops : (runEffectOf op (rt.function p.function).chunk.code offset).pops = 1 := by
    rcases hop with rfl | rfl <;> rfl
  refine Moves.bind_from pop_moves (h := c.height) hframes (Nat.sub_le_sub_left hpops.ge _)
    fun iterator hheight => ?_
  refine Moves.bind_from iterate_moves hframes (Nat.sub_le_sub_left hpops.ge _) fun step _ => ?_
  cases step with
  | next value key =>
    refine (pushAll_push_moves _ _).stays_from hframes (Nat.sub_le_sub_left hpops.ge _) fun _ => ?_
    rcases hop with rfl | rfl <;> exact List.mem_cons.mpr (Or.inl rfl)
  | exhausted =>
    refine Moves.stays_from push_moves hframes (Nat.sub_le_sub_left hpops.ge _) fun _ => ?_
    rcases hop with rfl | rfl <;> exact List.mem_cons_of_mem _ (List.mem_singleton.mpr rfl)

/-! ## Jumps -/

theorem validateJumpTarget_moves {message : ErrorMessage} : Moves 0 0 (validateJumpTarget rt message) :=
  (Moves.bind currentFrame_moves fun _ => Moves.ite (fun _ => Moves.runtimeError) (fun _ => Moves.pure)).cast
    rfl rfl

theorem jumpBy_executes {jump : Nat} {message : ErrorMessage} (hframes : c.frames = p :: rest)
    (hedge : (ip + jump, c.height) ∈
      flowEdges op (rt.function p.function).chunk.code offset c.height) :
    Triple (Has (c.moveTo ip)) (jumpBy rt jump message)
      (fun _ s => Executes rt op offset p rest c .done s.control) (Stops rt op offset p rest c) := by
  refine currentFrame_bind hframes fun cf _ hip _ => ?_
  rw [hip]
  refine Triple.bind setIp_moved fun _ => ?_
  exact Moves.stays validateJumpTarget_moves hframes (Nat.zero_le _) fun _ => hedge

theorem handleJump_executes (hframes : c.frames = p :: rest) :
    Triple (Has (c.moveTo (offset + 1))) (handleJump rt)
      (fun _ s => Executes rt .jump offset p rest c .done s.control) (Stops rt .jump offset p rest c) := by
  refine readU32_bind hframes le_rfl fun _ => ?_
  exact jumpBy_executes hframes (List.mem_singleton.mpr rfl)

theorem jumpIf_executes {jumpOnTruthy : Bool} (hop : op = .jumpIfFalse ∨ op = .jumpIfTrue)
    (hframes : c.frames = p :: rest) :
    Triple (Has (c.moveTo (offset + 1))) (jumpIf rt jumpOnTruthy)
      (fun _ s => Executes rt op offset p rest c .done s.control) (Stops rt op offset p rest c) := by
  have hedges : 1 ≤ c.height →
      flowEdges op (rt.function p.function).chunk.code offset c.height =
        [(offset + 1 + 4, c.height), (offset + 1 + 4 +
          readU32At (rt.function p.function).chunk.code (offset + 1), c.height)] := by
    intro hheight
    rcases hop with rfl | rfl <;>
      simp [flowEdges, runEffectOf, BytecodeVerifier.stackEffectOf, instructionSizeOf,
        Op.opcodeBaseSize, Op.info, resolveForwardJumpTarget, Nat.sub_add_cancel hheight]
  have hsize : offset + 1 + 4 ≤
      offset + instructionSizeOf op (rt.function p.function).chunk.code offset := by
    rcases hop with rfl | rfl <;> exact le_rfl
  have hpops : 1 ≤ (runEffectOf op (rt.function p.function).chunk.code offset).pops := by
    rcases hop with rfl | rfl <;> exact le_rfl
  refine readU32_bind hframes hsize fun _ => ?_
  refine Moves.bind_here peek_moves hframes hpops fun top hheight => Triple.ite (fun _ => ?_) (fun _ => ?_)
  · refine jumpBy_executes hframes ?_
    rw [hedges hheight]
    exact List.mem_cons_of_mem _ (List.mem_singleton.mpr rfl)
  · refine Moves.pure.stays hframes (Nat.zero_le _) fun _ => ?_
    rw [hedges hheight]
    exact List.mem_cons.mpr (Or.inl rfl)

theorem handleNullCoalesce_executes (hframes : c.frames = p :: rest) :
    Triple (Has (c.moveTo (offset + 1))) (handleNullCoalesce rt)
      (fun _ s => Executes rt .nullCoalesce offset p rest c .done s.control)
      (Stops rt .nullCoalesce offset p rest c) := by
  refine readU32_bind hframes le_rfl fun _ => ?_
  refine Moves.bind_here peek_moves hframes le_rfl fun top hheight => ?_
  have hkept : c.height - 1 + 1 = c.height := Nat.sub_add_cancel hheight
  split
  · refine Moves.pure.stays hframes (Nat.zero_le _) fun _ => ?_
    exact List.mem_cons.mpr (Or.inl (Prod.ext rfl hkept.symm))
  · refine Moves.bind_here setTop_moves hframes (Nat.zero_le _) fun _ _ => ?_
    refine jumpBy_executes hframes (List.mem_cons_of_mem _ (List.mem_singleton.mpr ?_))
    exact Prod.ext rfl hkept.symm

theorem handleLoop_executes (hframes : c.frames = p :: rest) :
    Triple (Has (c.moveTo (offset + 1))) (handleLoop rt)
      (fun _ s => Executes rt .loop offset p rest c .done s.control) (Stops rt .loop offset p rest c) := by
  refine readU32_bind hframes le_rfl fun _ => ?_
  refine currentFrame_bind hframes fun cf _ hip _ => ?_
  rw [hip]
  refine Triple.ite (fun _ => raise_stops) fun hstart => ?_
  refine Triple.bind setIp_moved fun _ => ?_
  refine Moves.bind_here checkCancellation_moves hframes (Nat.zero_le _) fun _ _ => ?_
  refine Moves.stays countIteration_moves hframes (Nat.zero_le _) fun _ => ?_
  have hedges : flowEdges .loop (rt.function p.function).chunk.code offset c.height =
      [(resolveLoopJumpTarget offset (readU32At (rt.function p.function).chunk.code (offset + 1)),
        c.height)] := if_pos (Nat.not_lt.mp hstart)
  rw [hedges]
  exact List.mem_singleton.mpr rfl

/-! ## Calls -/

theorem validateCallDepth_moves : Moves 0 0 (validateCallDepth rt) := by
  refine Moves.get_bind fun s hframes => Triple.ite (fun _ => raise_above) (fun _ => ?_)
  exact Moves.pure.from_state hframes

/-- How a call may stop the dispatch loop. -/
def CallStops (c : Control) (pops : Nat) : Exit V N → State V W → Prop
  | .raised _, s => ∃ height, c.height - pops ≤ height ∧ Has (c.withHeight height) s
  | .native _ _, s => Has (c.withHeight (c.height - pops)) s
  | _, _ => False

theorem RaisedAbove.callStops {a b : Nat} {e : Exit V N} {s : State V W} (hle : a ≤ b)
    (hraised : RaisedAbove c a e s) : CallStops c b e s := by
  cases e <;> try exact hraised.elim
  obtain ⟨height, hheight, hs⟩ := hraised
  exact ⟨height, (Nat.sub_le_sub_left hle _).trans hheight, hs⟩

theorem prepareArguments_has {func : CompiledFunction} {argCount : Nat} (hc : c.frames ≠ []) :
    Triple (Has c) (prepareArguments rt func argCount)
      (fun _ s => argCount ≤ func.arity ∧ Has (c.withHeight (c.height + (func.arity - argCount))) s)
      (RaisedAbove c 0) := by
  refine Triple.ite (fun _ => raise_has) (fun _ => ?_)
  refine Triple.bind (pushAll_moves _ c hc) fun _ => ?_
  refine Triple.ite (fun _ => ?_) (fun hargs => ?_)
  · rintro s ⟨-, hs⟩
    exact ⟨_, Nat.le_add_right _ _, hs⟩
  · rintro s ⟨-, hs⟩
    rw [List.length_replicate] at hs
    exact ⟨Nat.not_lt.mp hargs, hs⟩

theorem enterFunction_has {id : FunctionId} {argCount : Nat} (hheight : argCount + 1 ≤ c.height)
    {E : Exit V N → State V W → Prop} :
    Triple (Has c) (enterFunction rt id argCount)
      (fun _ => Has (c.enter id (c.height - (argCount + 1)) argCount)) E := by
  refine Triple.modify.weaken_pre fun s hs => ?_
  cases hs
  have hlength : s.stack.length - (argCount + 1) + 1 + argCount = s.stack.length := by
    have : argCount + 1 ≤ s.stack.length := hheight
    omega
  simp only [Has, State.control, Control.enter, List.map_cons, CallFrame.position, hlength,
    Nat.sub_sub]

theorem callFunction_calls {id : FunctionId} {argCount : Nat} (hframes : c.frames ≠ [])
    (hheight : argCount + 1 ≤ c.height) :
    Triple (Has c) (callFunction rt id argCount)
      (fun _ => Has (c.enter id (c.height - (argCount + 1)) (rt.function id).arity))
      (RaisedAbove c 0) := by
  refine Triple.bind (Q := fun _ => Has c) ((validateCallDepth_moves c hframes).conseq
    (fun _ hs => hs) (fun _ _ hs => hs.2) (fun _ _ h => h)) fun _ => ?_
  refine Triple.bind (Q := fun _ => Has c) ((checkCancellation_moves c hframes).conseq
    (fun _ hs => hs) (fun _ _ hs => hs.2) (fun _ _ h => h)) fun _ => ?_
  refine Triple.bind ((prepareArguments_has hframes).conseq
    (fun _ hs => hs) (fun _ _ hs => hs) (fun _ _ h => h)) fun _ => ?_
  rintro s ⟨hargs, hs⟩
  have hbase : c.height + ((rt.function id).arity - argCount) - ((rt.function id).arity + 1) =
      c.height - (argCount + 1) := by omega
  have henter : Triple (Has (c.withHeight (c.height + ((rt.function id).arity - argCount))))
      (enterFunction rt id (rt.function id).arity) _ (RaisedAbove c 0) :=
    enterFunction_has (by rw [Control.height_withHeight]; omega)
  rw [Control.height_withHeight, hbase] at henter
  exact henter s hs

theorem callNative_calls {start : N} {argCount : Nat} {Q : Unit → State V W → Prop}
    (hframes : c.frames ≠ []) :
    Triple (Has c) (callNative start argCount : Exec V N W Unit) Q (CallStops c (argCount + 1)) := by
  have hpops : Moves (argCount + 1) 0 (do let args ← popSequence argCount; let _ ← pop; return args :
      Exec V N W (List V)) :=
    ((popSequence_moves argCount).bind fun _ => Moves.bind pop_moves fun _ => Moves.pure).cast
      (by omega) (by omega)
  have hthrow : callNative start argCount = (do
      let args ← (do let args ← popSequence argCount; let _ ← pop; return args : Exec V N W (List V))
      throw (.native start args) : Exec V N W Unit) := by
    simp only [bind_assoc, pure_bind]
    rfl
  rw [hthrow]
  refine Triple.bind ((hpops c hframes).conseq (fun _ hs => hs) (fun _ _ hs => hs)
    (fun _ _ => RaisedAbove.callStops le_rfl)) fun args => ?_
  rintro s ⟨-, hs⟩
  exact hs

/-- Calling a value that is no native function enters a frame or raises an error. -/
theorem callValue_enters {callee : V} {argCount : Nat} (hframes : c.frames ≠ [])
    (hheight : argCount + 1 ≤ c.height) (hnative : ∀ start, rt.callee callee ≠ .native start) :
    Triple (Has c) (callValue rt callee argCount)
      (fun _ s => ∃ id, Has (c.enter id (c.height - (argCount + 1)) (rt.function id).arity) s)
      (RaisedAbove c 0) := by
  rw [callValue]
  split
  · exact (callFunction_calls hframes hheight).conseq (fun _ hs => hs) (fun _ _ hs => ⟨_, hs⟩)
      (fun _ _ h => h)
  next start hcallee => exact absurd hcallee (hnative start)
  · exact raise_has

theorem callValue_calls {callee : V} {argCount : Nat} (hframes : c.frames ≠ [])
    (hheight : argCount + 1 ≤ c.height) :
    Triple (Has c) (callValue rt callee argCount)
      (fun _ s => ∃ id, Has (c.enter id (c.height - (argCount + 1)) (rt.function id).arity) s)
      (CallStops c (argCount + 1)) := by
  by_cases hnative : ∃ start, rt.callee callee = .native start
  · obtain ⟨start, hcallee⟩ := hnative
    simp only [callValue, hcallee]
    exact callNative_calls hframes
  · exact (callValue_enters hframes hheight (not_exists.mp hnative)).conseq (fun _ hs => hs)
      (fun _ _ hs => hs) (fun _ _ => RaisedAbove.callStops (Nat.zero_le _))

/-- A call ends the instruction. -/
theorem callValue_executes {callee : V} {argCount h : Nat} (hop : isCall op = true)
    (hframes : c.frames = p :: rest)
    (hip : ip = offset + instructionSizeOf op (rt.function p.function).chunk.code offset)
    (hargs : argCount + 1 ≤ h)
    (hpops : (runEffectOf op (rt.function p.function).chunk.code offset).pops ≤ c.height)
    (hheight : h - (argCount + 1) =
      c.height - (runEffectOf op (rt.function p.function).chunk.code offset).pops) :
    Triple (Has ((c.moveTo ip).withHeight h)) (callValue rt callee argCount)
      (fun _ s => Executes rt op offset p rest c .done s.control) (Stops rt op offset p rest c) := by
  have hnonempty : ((c.moveTo ip).withHeight h).frames ≠ [] := by
    rw [Control.frames_withHeight, Control.frames_moveTo hframes]
    exact List.cons_ne_nil _ _
  refine (callValue_calls hnonempty hargs).conseq (fun _ hs => hs) ?_ ?_
  · rintro _ s ⟨id, hs⟩
    rw [show s.control = _ from hs, Control.height_withHeight, hheight, hip]
    exact Executes.calls hop rfl hpops
  · intro e s hs
    cases e with
    | raised r =>
      obtain ⟨height', hle, hs⟩ := hs
      rw [Stops, show s.control = _ from hs]
      exact Executes.raises (hheight ▸ hle)
    | native start args =>
      rw [Stops, show s.control = _ from hs, Control.height_withHeight, hheight, hip]
      exact Executes.callsNative hop rfl hpops
    | returned => exact hs.elim
    | fault => exact hs.elim

theorem handleCall_executes (hframes : c.frames = p :: rest) :
    Triple (Has (c.moveTo (offset + 1))) (handleCall rt)
      (fun _ s => Executes rt .call offset p rest c .done s.control) (Stops rt .call offset p rest c) := by
  refine readByte_bind hframes le_rfl fun _ => ?_
  refine Moves.bind_here peek_moves hframes le_rfl fun callee hheight => ?_
  exact callValue_executes (h := c.height) rfl hframes rfl hheight hheight rfl

theorem handlePipe_executes (hframes : c.frames = p :: rest) :
    Triple (Has (c.moveTo (offset + 1))) (handlePipe rt)
      (fun _ s => Executes rt .pipe offset p rest c .done s.control) (Stops rt .pipe offset p rest c) := by
  have hpops : (runEffectOf .pipe (rt.function p.function).chunk.code offset).pops = 2 := rfl
  refine Moves.bind_from pop_moves (h := c.height) hframes (by omega) fun callee h1 => ?_
  refine Moves.bind_from pop_moves hframes (by omega) fun value h2 => ?_
  refine Moves.bind_from push_moves hframes (by omega) fun _ _ => ?_
  refine Moves.bind_from push_moves hframes (by omega) fun _ _ => ?_
  exact callValue_executes rfl hframes rfl (by omega) (by omega) (by omega)

theorem handleErrorPipe_executes (hframes : c.frames = p :: rest) :
    Triple (Has (c.moveTo (offset + 1))) (handleErrorPipe rt)
      (fun _ s => Executes rt .errorPipe offset p rest c .done s.control)
      (Stops rt .errorPipe offset p rest c) := by
  have hpops : (runEffectOf .errorPipe (rt.function p.function).chunk.code offset).pops = 2 := rfl
  refine Moves.bind_from pop_moves (h := c.height) hframes (by omega) fun callee h1 => ?_
  refine Moves.bind_from pop_moves hframes (by omega) fun value h2 => ?_
  split
  · refine Moves.stays_from push_moves hframes (by omega) fun _ => List.mem_singleton.mpr (Prod.ext rfl ?_)
    show c.height - 1 + 0 - 1 + 0 - 0 + 1 = c.height - 2 + 1
    omega
  · refine Moves.bind_from push_moves hframes (by omega) fun _ _ => ?_
    refine Moves.bind_from push_moves hframes (by omega) fun _ _ => ?_
    exact callValue_executes rfl hframes rfl (by omega) (by omega) (by omega)

/-- What a computation returns, from every state. -/
def Returns (m : Exec V N W α) (φ : α → Prop) : Prop :=
  Triple (fun _ => True) m (fun x _ => φ x) (fun _ _ => True)

theorem Returns.any {m : Exec V N W α} : Returns m fun _ => True := by
  intro s _
  cases hrun : m.runFrom s with
  | mk r t => cases r <;> trivial

/-- Go on with a value something is known about. -/
theorem Moves.bind_returning {m : Exec V N W α} {k : α → Exec V N W β} {a b h : Nat} {φ : α → Prop}
    (hm : Moves a b m) (hreturns : Returns m φ) (hframes : c.frames = p :: rest)
    (hlow : c.height - (runEffectOf op (rt.function p.function).chunk.code offset).pops ≤ h - a)
    (hk : ∀ x, φ x → a ≤ h → Triple (Has ((c.moveTo ip).withHeight (h - a + b))) (k x) Q
      (Stops rt op offset p rest c)) :
    Triple (Has ((c.moveTo ip).withHeight h)) (m >>= k) Q (Stops rt op offset p rest c) := by
  refine Triple.bind (Q := fun x s => (a ≤ h ∧ Has ((c.moveTo ip).withHeight (h - a + b)) s) ∧ φ x)
    (((hm.conseq_has hframes hlow).and hreturns).conseq (fun s hs => ⟨hs, trivial⟩)
      (fun _ _ hs => hs) (fun _ _ hs => hs.1)) fun x => ?_
  rintro s ⟨⟨hle, hs⟩, hx⟩
  exact hk x hx hle s hs

theorem popSequence_returns : (n : Nat) →
    Returns (popSequence n : Exec V N W (List V)) fun vs => vs.length = n
  | 0 => Triple.pure.weaken_pre fun _ _ => rfl
  | n + 1 => by
    refine Triple.bind Returns.any fun last => Triple.bind (popSequence_returns n) fun front => ?_
    refine Triple.pure.weaken_pre fun s hfront => ?_
    exact (List.length_append ..).trans (congrArg (· + 1) hfront)

theorem popPairs_returns : (n : Nat) →
    Returns (popPairs n : Exec V N W (List (V × V))) fun pairs => pairs.length = n
  | 0 => Triple.pure.weaken_pre fun _ _ => rfl
  | n + 1 => by
    refine Triple.bind Returns.any fun value => Triple.bind Returns.any fun name => ?_
    refine Triple.bind (popPairs_returns n) fun front => ?_
    refine Triple.pure.weaken_pre fun s hfront => ?_
    exact (List.length_append ..).trans (congrArg (· + 1) hfront)

theorem popPairs_moves : (n : Nat) → Moves (n * 2) 0 (popPairs n : Exec V N W (List (V × V)))
  | 0 => Moves.pure
  | n + 1 =>
    (Moves.bind pop_moves fun _ => Moves.bind pop_moves fun _ => (popPairs_moves n).bind fun _ => Moves.pure).cast
      (by omega) (by omega)

theorem handleCallNamed_executes (hframes : c.frames = p :: rest) :
    Triple (Has (c.moveTo (offset + 1))) (handleCallNamed rt)
      (fun _ s => Executes rt .callNamed offset p rest c .done s.control)
      (Stops rt .callNamed offset p rest c) := by
  have hpops : (runEffectOf .callNamed (rt.function p.function).chunk.code offset).pops =
    (byteAt (rt.function p.function).chunk.code (offset + 1)).toNat +
      2 * (byteAt (rt.function p.function).chunk.code (offset + 1 + 1)).toNat + 1 := rfl
  refine readByte_bind hframes (Nat.le_succ _) fun _ => ?_
  refine readByte_bind hframes le_rfl fun _ => ?_
  refine Moves.bind_here peek_moves hframes (by omega) fun callee hheight => ?_
  refine (popPairs_moves _).bind_returning (h := c.height) (popPairs_returns _) hframes (by omega)
    fun named hnamed _ => ?_
  refine (popSequence_moves _).bind_returning (popSequence_returns _) hframes (by omega)
    fun positional hpositional _ => ?_
  split
  next id _ =>
    dsimp only
    split
    · exact raise_stops_from (by omega)
    · refine (pushAll_moves _).bind_from hframes (by omega) fun _ _ => ?_
      rw [List.length_map, List.length_range]
      exact callValue_executes rfl hframes rfl (by omega) (by omega) (by omega)
  · refine (pushAll_moves _).bind_from hframes (by omega) fun _ _ => ?_
    refine (pushAll_moves _).bind_from hframes (by omega) fun _ _ => ?_
    rw [List.length_map, hpositional, hnamed]
    exact callValue_executes rfl hframes rfl (by omega) (by omega) (by omega)

theorem length_truncateTo {none : V} {size : Nat} {stack : List V} :
    (truncateTo none size stack).length = size := by
  rw [truncateTo, List.length_append, List.length_replicate, List.length_drop]
  omega

theorem reuseFrame_control {id : FunctionId} {callee : V} {s : State V W}
    (hframes : s.control.frames = p :: rest) (harity : (rt.function id).arity ≤ s.stack.length) :
    (reuseFrame rt id callee p.slotOffset s).control =
      { s.control.discardFrom rest.length with
        frames := ⟨id, 0, p.slotOffset⟩ :: rest
        height := p.slotOffset + 1 + (rt.function id).arity } := by
  obtain ⟨cf, frames, hcons, hcf, hrest⟩ := List.map_eq_cons_iff.mp hframes
  subst hcf hrest
  simp only [reuseFrame, discardFramesFrom, hcons, State.control, Control.discardFrom, List.map_cons,
    CallFrame.position, List.length_cons, Nat.add_sub_cancel, List.length_map, List.length_append,
    List.length_take, length_truncateTo, Nat.min_eq_left harity]
  rw [Nat.add_comm]

theorem handleTailCall_executes (hframes : c.frames = p :: rest) :
    Triple (Has (c.moveTo (offset + 1))) (handleTailCall rt)
      (fun _ s => Executes rt .tailCall offset p rest c .done s.control)
      (Stops rt .tailCall offset p rest c) := by
  refine readByte_bind hframes le_rfl fun _ => ?_
  refine Moves.bind_here peek_moves hframes le_rfl fun callee hheight => ?_
  split
  next id _ =>
    refine Moves.bind_here checkCancellation_moves hframes (Nat.zero_le _) fun _ _ => ?_
    have hmoved : (c.moveTo (offset + 1 + 1)).frames = { p with ip := offset + 1 + 1 } :: rest :=
      Control.frames_moveTo hframes
    refine Triple.bind ((prepareArguments_has (hmoved ▸ List.cons_ne_nil _ _)).conseq (fun _ hs => hs)
      (fun _ _ hs => hs) (fun _ _ => RaisedAbove.stops)) fun _ => ?_
    rintro s ⟨hargs, hs⟩
    generalize hh : (c.moveTo (offset + 1 + 1)).height + _ = h at hs
    refine currentFrame_bind (c := c.withHeight h) hframes (fun cf _ _ hslot => ?_) s hs
    rw [hslot]
    refine Triple.modify.weaken_pre fun t ht => ?_
    have hlength := congrArg Control.height ht
    have harity : (rt.function id).arity ≤ t.stack.length := by
      change t.stack.length = _ at hlength
      simp only [Control.height_withHeight, Control.height_moveTo] at hlength hh
      omega
    rw [reuseFrame_control ((congrArg Control.frames ht).trans hmoved) harity,
      show t.control = _ from ht]
    exact Executes.tailCalls rfl
  · exact callValue_executes (h := c.height) rfl hframes rfl hheight hheight rfl

theorem leaveFrame_control {slotOffset : Nat} {s : State V W} (hframes : s.control.frames = p :: rest) :
    (leaveFrame rt slotOffset s).control =
      { s.control.discardFrom rest.length with frames := rest, height := slotOffset } := by
  obtain ⟨cf, frames, hcons, hcf, hrest⟩ := List.map_eq_cons_iff.mp hframes
  subst hcf hrest
  simp only [leaveFrame, discardFramesFrom, hcons, State.control, Control.discardFrom, List.tail_cons,
    List.length_map, length_truncateTo]

theorem completeReturn_executes {result : V} {h : Nat} (hop : op = .return_ ∨ op = .getLocalReturn)
    (hframes : c.frames = p :: rest) :
    Triple (Has ((c.moveTo ip).withHeight h)) (completeReturn rt result p.slotOffset)
      (fun _ s => Executes rt op offset p rest c .done s.control) (Stops rt op offset p rest c) := by
  have hleft := Control.frames_moveTo (a := ip) hframes
  refine Triple.bind (Q := fun _ => Has
      { c.discardFrom rest.length with frames := rest, height := p.slotOffset }) ?_ fun _ => ?_
  · refine Triple.modify.weaken_pre fun s hs => ?_
    rw [Has, leaveFrame_control ((congrArg Control.frames hs).trans hleft), show s.control = _ from hs]
    rfl
  · refine get_bind_has fun s hs => ?_
    have hdepth : s.frames.length = rest.length := by
      simpa [State.control] using congrArg (List.length ∘ Control.frames) hs
    have hbaseDepth : s.baseDepth = c.baseDepth := congrArg Control.baseDepth hs
    rw [hdepth, hbaseDepth]
    refine Triple.ite (fun hbase => ?_) (fun hbase => ?_)
    · refine Triple.throw.weaken_pre fun t ht => ?_
      rw [Stops, ht, show s.control = _ from hs]
      exact Executes.returns hop (Or.inr (Or.inr ⟨rfl, hbase, rfl⟩))
    · have hlive := Nat.not_le.mp hbase
      refine (Triple.conseq push_has (fun _ ht => ht ▸ hs) ?_ ?_)
      · rintro _ u ⟨-, hu⟩
        rw [show u.control = _ from hu]
        exact Executes.returns hop (Or.inl ⟨rfl, hlive, rfl⟩)
      · rintro e u ⟨hraised, hfull, hu⟩
        rw [Stops, hraised, show u.control = _ from hu]
        exact Executes.returns hop (Or.inr (Or.inl ⟨rfl, hlive, rfl, hfull⟩))

theorem handleReturn_executes (hframes : c.frames = p :: rest) :
    Triple (Has (c.moveTo (offset + 1))) (handleReturn rt)
      (fun _ s => Executes rt .return_ offset p rest c .done s.control)
      (Stops rt .return_ offset p rest c) := by
  refine Moves.bind_from pop_moves (h := c.height) hframes le_rfl fun result _ => ?_
  refine currentFrame_bind (c := c.withHeight (c.height - 1 + 0)) hframes fun cf _ _ hslot => ?_
  rw [hslot]
  exact completeReturn_executes (Or.inl rfl) hframes

theorem handleGetLocalReturn_executes (hframes : c.frames = p :: rest) :
    Triple (Has (c.moveTo (offset + 1))) (handleGetLocalReturn rt)
      (fun _ s => Executes rt .getLocalReturn offset p rest c .done s.control)
      (Stops rt .getLocalReturn offset p rest c) := by
  refine readU16_bind hframes le_rfl fun _ => ?_
  refine Moves.bind_here getLocalSlot_moves hframes (Nat.zero_le _) fun result _ => ?_
  refine currentFrame_bind hframes fun cf _ _ hslot => ?_
  rw [hslot]
  exact completeReturn_executes (h := c.height) (Or.inr rfl) hframes

/-! ## Handlers and task scopes -/

theorem pushHandler_has {handler : ExceptionHandler} :
    Triple (Has c) (pushHandler handler : Exec V N W Unit)
      (fun _ s => c.handlers.length < maxHandlers ∧ Has (c.withHandlers (handler :: c.handlers)) s)
      (RaisedAbove c 0) := by
  refine get_bind_has fun s hs => ?_
  cases hs
  refine Triple.ite (fun _ => raise_above) (fun hspace => ?_)
  rintro t rfl
  exact ⟨Nat.not_le.mp hspace, rfl⟩

theorem handleTryCatch_executes (hframes : c.frames = p :: rest) :
    Triple (Has (c.moveTo (offset + 1))) (handleTryCatch rt)
      (fun _ s => Executes rt .tryCatch offset p rest c .done s.control)
      (Stops rt .tryCatch offset p rest c) := by
  refine readU32_bind hframes le_rfl fun _ => ?_
  refine currentFrame_bind hframes fun cf hfunction hip _ => ?_
  refine Triple.ite (fun _ => raise_stops) fun _ => ?_
  rw [hfunction, hip]
  refine get_bind_has fun s hs => ?_
  have hdepth : s.frames.length - 1 = rest.length := by
    have hlength := congrArg (List.length ∘ Control.frames) hs
    simp [State.control, Control.frames_moveTo hframes] at hlength
    omega
  have hheight : s.stack.length = c.height := congrArg Control.height hs
  have hscopes : s.taskScopes = c.taskScopes := congrArg Control.taskScopes hs
  rw [hdepth, hheight, hscopes]
  refine Triple.conseq pushHandler_has (fun _ ht => ht ▸ hs) ?_ (fun _ _ => RaisedAbove.stops)
  rintro _ t ⟨hspace, ht⟩
  rw [show t.control = _ from ht]
  exact Executes.installs rfl hspace

theorem handleTryEnd_executes :
    Triple (Has (c.moveTo (offset + 1))) (handleTryEnd : Exec V N W Unit)
      (fun _ s => Executes rt .tryEnd offset p rest c .done s.control)
      (Stops rt .tryEnd offset p rest c) := by
  refine get_bind_has fun s hs => ?_
  split
  · exact Triple.weaken_pre raise_stops fun _ ht => ht ▸ hs
  next h handlers hhandlers =>
    refine Triple.set.weaken_pre fun t ht => ?_
    have hinstalled : c.handlers = h :: handlers := (congrArg Control.handlers hs).symm.trans hhandlers
    have hcontrol : ({ s with handlers } : State V W).control =
        (c.moveTo (offset + 1)).withHandlers handlers := by
      rw [← show s.control = _ from hs]
      rfl
    rw [hcontrol]
    exact Executes.removes rfl hinstalled

theorem handleRethrow_executes (hframes : c.frames = p :: rest) :
    Triple (Has (c.moveTo (offset + 1))) (handleRethrow rt)
      (fun _ s => Executes rt .rethrow offset p rest c .done s.control)
      (Stops rt .rethrow offset p rest c) := by
  refine Moves.bind_from pop_moves (h := c.height) hframes le_rfl fun errorValue _ => ?_
  refine Moves.bind_from (Moves.modify ?_) hframes le_rfl fun _ _ => ?_
  · exact fun _ => rfl
  · exact raise_stops_from le_rfl

theorem handleTaskScopeBegin_executes :
    Triple (Has (c.moveTo (offset + 1))) (handleTaskScopeBegin : Exec V N W Unit)
      (fun _ s => Executes rt .taskScopeBegin offset p rest c .done s.control)
      (Stops rt .taskScopeBegin offset p rest c) := by
  refine Triple.modify.weaken_pre fun s hs => ?_
  have hcontrol : ({ s with taskScopes := s.taskScopes + 1 } : State V W).control =
      (c.moveTo (offset + 1)).withScopes (c.taskScopes + 1) := by
    rw [← show s.taskScopes = c.taskScopes from congrArg Control.taskScopes hs,
      ← show s.control = _ from hs]
    rfl
  exact hcontrol ▸ Executes.opensScope rfl

theorem handleTaskScopeEnd_executes (hframes : c.frames = p :: rest) :
    Triple (Has (c.moveTo (offset + 1))) (handleTaskScopeEnd rt)
      (fun _ s => Executes rt .taskScopeEnd offset p rest c .done s.control)
      (Stops rt .taskScopeEnd offset p rest c) := by
  refine get_bind_has fun s hs => ?_
  have hscopes : s.taskScopes = c.taskScopes := congrArg Control.taskScopes hs
  rw [hscopes]
  refine Triple.ite (fun _ => Triple.weaken_pre raise_stops fun _ ht => ht ▸ hs) fun hopen => ?_
  refine Triple.bind (Q := fun _ => Has ((c.moveTo (offset + 1)).withScopes (c.taskScopes - 1)))
    (Triple.modify.weaken_pre fun t ht => ?_) fun _ => ?_
  · cases ht
    rw [← hscopes, Has, ← show s.control = _ from hs]
    rfl
  have hnonempty : ((c.moveTo (offset + 1)).withScopes (c.taskScopes - 1)).frames ≠ [] := by
    rw [show ((c.moveTo (offset + 1)).withScopes (c.taskScopes - 1)).frames = _ from
      Control.frames_moveTo hframes]
    exact List.cons_ne_nil _ _
  refine (produce_moves _ hnonempty).conseq (fun _ ht => ht) ?_ ?_
  · rintro _ t ⟨-, ht⟩
    rw [show t.control = _ from ht]
    exact Executes.closesScope rfl (Nat.pos_of_ne_zero hopen) (Or.inl ⟨rfl, rfl⟩)
  · intro e t ht
    cases e <;> try exact ht.elim
    obtain ⟨height, hle, ht⟩ := ht
    rw [Stops, show t.control = _ from ht]
    exact Executes.closesScope rfl (Nat.pos_of_ne_zero hopen) (Or.inr ⟨rfl, hle⟩)

/-! ## All instructions -/

/-- An instruction without operands whose effect is that of an operation on values. -/
theorem Moves.plain {m : Exec V N W Unit} {a b : Nat} (hm : Moves a b m) (hframes : c.frames = p :: rest)
    (hpops : a ≤ (runEffectOf op (rt.function p.function).chunk.code offset).pops)
    (hedges : a ≤ c.height → flowEdges op (rt.function p.function).chunk.code offset c.height =
      [(offset + 1, c.height - a + b)]) :
    Triple (Has (c.moveTo (offset + 1))) m (fun _ s => Executes rt op offset p rest c .done s.control)
      (Stops rt op offset p rest c) :=
  hm.stays hframes hpops fun ha => hedges ha ▸ List.mem_singleton.mpr rfl

theorem execute_executes (hframes : c.frames = p :: rest) :
    Triple (Has (c.moveTo (offset + 1))) (execute rt op)
      (fun _ s => Executes rt op offset p rest c .done s.control) (Stops rt op offset p rest c) := by
  have hstay {ip h : Nat} : (ip, h) ∈ [(ip, h)] := List.mem_singleton.mpr rfl
  cases op
  case constant => exact handleConstant_executes hframes
  case constantLong => exact handleConstantLong_executes hframes
  case pop => exact ((Moves.bind pop_moves fun _ => Moves.pure).cast rfl rfl).plain hframes le_rfl fun _ => rfl
  case dup =>
    exact ((Moves.bind validateStackDepth_moves fun _ => Moves.bind peek_moves fun _ => push_moves).cast rfl rfl).plain
      hframes le_rfl fun _ => rfl
  case dup2 =>
    exact ((Moves.bind validateStackDepth_moves fun _ => Moves.bind peek_moves fun _ => Moves.bind peek_moves fun _ =>
      Moves.bind push_moves fun _ => push_moves).cast rfl rfl).plain hframes le_rfl fun _ => rfl
  case swap =>
    refine Moves.plain (Moves.cast (Moves.bind validateStackDepth_moves fun _ => Moves.modify ?_) rfl rfl)
      hframes le_rfl fun _ => rfl
    intro s
    split <;> simp_all [State.control]
  case getLocal =>
    refine readU16_bind hframes le_rfl fun _ => ?_
    exact ((Moves.bind getLocalSlot_moves fun _ => push_moves).cast rfl rfl).stays hframes le_rfl fun _ => hstay
  case setLocal =>
    refine readU16_bind hframes le_rfl fun _ => ?_
    exact ((Moves.bind peek_moves fun _ => setLocalSlot_moves).cast rfl rfl).stays hframes le_rfl fun _ => hstay
  case getUpvalue =>
    refine readU16_bind hframes le_rfl fun _ => ?_
    exact Moves.stays produce_moves hframes le_rfl fun _ => hstay
  case setUpvalue =>
    refine readU16_bind hframes le_rfl fun _ => ?_
    exact Moves.stays store_moves hframes le_rfl fun _ => hstay
  case getGlobal =>
    exact readName_bind hframes le_rfl fun _ => Moves.stays produce_moves hframes le_rfl fun _ => hstay
  case setGlobal =>
    exact readName_bind hframes le_rfl fun _ => Moves.stays store_moves hframes le_rfl fun _ => hstay
  case none_ | true_ | false_ | zero | one => exact Moves.plain push_moves hframes le_rfl fun _ => rfl
  case add | subtract | multiply | divide | intDivide | modulo | equal | notEqual | less | lessEqual
      | greater | greaterEqual | and | or | concatenate =>
    exact Moves.plain binary_moves hframes le_rfl fun _ => rfl
  case negate | increment | decrement | not | isSome | ensureSuccess | typeOf | intToNumber | clone =>
    exact Moves.plain inPlace_moves hframes le_rfl fun _ => rfl
  case interpolate => exact handleInterpolate_executes hframes
  case makeArray | makeTuple =>
    refine readU16_bind hframes le_rfl fun _ => ?_
    refine Moves.bind_here validateStackSpace_moves hframes (Nat.zero_le _) fun _ _ => ?_
    exact Moves.stays replaceTop_moves hframes le_rfl fun _ => hstay
  case makeDict =>
    refine readU16_bind hframes le_rfl fun _ => ?_
    refine Moves.bind_here validateStackSpace_moves hframes (Nat.zero_le _) fun _ _ => ?_
    exact (Moves.cast replaceTop_moves (Nat.mul_comm _ _) rfl).stays hframes le_rfl fun _ => hstay
  case makeRange | makeRangeInc | indexGet | indexGetOpt | makeChoice | contains =>
    exact Moves.plain replaceTop_moves hframes le_rfl fun _ => rfl
  case indexSet => exact Moves.plain replaceTop_moves hframes le_rfl fun _ => rfl
  case makeRecord => exact handleMakeRecord_executes hframes
  case getField | getFieldOpt | downcast | trustedDowncast | isType =>
    exact readName_bind hframes le_rfl fun _ => Moves.stays replaceTop_moves hframes le_rfl fun _ => hstay
  case setField =>
    exact readName_bind hframes le_rfl fun _ => Moves.stays replaceTop_moves hframes le_rfl fun _ => hstay
  case recordWith => exact handleRecordWith_executes hframes
  case makeChoiceConstructor =>
    refine readByte_bind hframes le_rfl fun _ => ?_
    exact Moves.stays replaceTop_moves hframes le_rfl fun _ => hstay
  case makeSuccess | makeFailure | unwrap | resultInner | isSuccess =>
    exact Moves.plain replaceTop_moves hframes le_rfl fun _ => rfl
  case makeSome | matchStart | matchArm | matchEnd => exact Moves.pure.plain hframes le_rfl fun _ => rfl
  case jump => exact handleJump_executes hframes
  case jumpIfFalse => exact jumpIf_executes (Or.inl rfl) hframes
  case jumpIfTrue => exact jumpIf_executes (Or.inr rfl) hframes
  case loop => exact handleLoop_executes hframes
  case nullCoalesce => exact handleNullCoalesce_executes hframes
  case call => exact handleCall_executes hframes
  case callNamed => exact handleCallNamed_executes hframes
  case tailCall => exact handleTailCall_executes hframes
  case return_ => exact handleReturn_executes hframes
  case makeClosure => exact handleMakeClosure_executes hframes
  case pipe => exact handlePipe_executes hframes
  case errorPipe => exact handleErrorPipe_executes hframes
  case tryCatch => exact handleTryCatch_executes hframes
  case tryEnd => exact handleTryEnd_executes
  case rethrow => exact handleRethrow_executes hframes
  case spawn =>
    refine readByte_bind hframes le_rfl fun _ => ?_
    exact Moves.stays replaceTop_moves hframes le_rfl fun _ => hstay
  case await =>
    exact ((Moves.bind checkCancellation_moves fun _ => replaceTop_moves).cast rfl rfl).plain hframes le_rfl
      fun _ => rfl
  case taskScopeBegin => exact handleTaskScopeBegin_executes
  case taskScopeEnd => exact handleTaskScopeEnd_executes hframes
  case forIterInit =>
    refine Moves.plain (Moves.cast (Moves.bind replaceTop_moves fun _ => Moves.modify ?_) rfl rfl) hframes
      le_rfl fun _ => rfl
    exact fun _ => rfl
  case forIterStep => exact dispatchIterStep_executes hframes (Or.inl rfl)
  case forIterStepKV => exact dispatchIterStep_executes hframes (Or.inr rfl)
  case print =>
    refine readByte_bind hframes le_rfl fun _ => ?_
    exact Moves.stays replaceTop_moves hframes le_rfl fun _ => hstay
  case assert =>
    refine readByte_bind hframes le_rfl fun _ => ?_
    exact Moves.stays replaceTop_moves hframes le_rfl fun _ => hstay
  case incrementLocal | decrementLocal =>
    refine readU16_bind hframes le_rfl fun _ => ?_
    exact ((Moves.bind getLocalSlot_moves fun _ => Moves.bind compute_moves fun _ => setLocalSlot_moves).cast
      rfl rfl).stays hframes le_rfl fun _ => hstay
  case setLocalPop =>
    refine readU16_bind hframes le_rfl fun _ => ?_
    exact ((Moves.bind pop_moves fun _ => setLocalSlot_moves).cast rfl rfl).stays hframes le_rfl fun _ => hstay
  case getLocalReturn => exact handleGetLocalReturn_executes hframes
  case widenNumber =>
    exact readName_bind hframes le_rfl fun _ => Moves.stays inPlace_moves hframes le_rfl fun _ => hstay
  case uniqueLocal =>
    refine readU16_bind hframes le_rfl fun _ => ?_
    exact Moves.stays makeLocalExclusive_moves hframes le_rfl fun _ => hstay
  case uniqueUpvalue =>
    refine readU16_bind hframes le_rfl fun _ => ?_
    exact ((Moves.bind compute_moves fun _ => Moves.pure).cast rfl rfl).stays hframes le_rfl fun _ => hstay
  case uniqueGlobal =>
    refine readName_bind hframes le_rfl fun _ => ?_
    exact ((Moves.bind compute_moves fun _ => Moves.pure).cast rfl rfl).stays hframes le_rfl fun _ => hstay
  case getFieldUnique =>
    refine readName_bind hframes le_rfl fun _ => ?_
    exact ((Moves.bind validateStackDepth_moves fun _ => replaceTop_moves).cast rfl rfl).stays hframes le_rfl
      fun _ => hstay
  case indexGetUnique =>
    exact ((Moves.bind validateStackDepth_moves fun _ => replaceTop_moves).cast rfl rfl).plain hframes le_rfl
      fun _ => rfl
  case endModule =>
    refine Triple.throw.weaken_pre fun s hs => ?_
    rw [Stops, show s.control = _ from hs]
    exact Executes.ends rfl

end

end

end Luma.Vm
