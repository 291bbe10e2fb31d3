-- SUMMARY: In every run the sets are sound and their operations exact, unless a widening merges elements.
import Luma.Stdlib.SetLaws
import Luma.Types.Merging

/-! # Runs over Sets

A run comes by values and set objects: it puts values together from those it has, takes
them apart, calls the functions of the Set module and widens values. Every set made on the
way is sound as long as no widening merges two elements of a set. -/

namespace Luma.SetModule

open Codec Representatives Stateful Value

/-! ## Steps -/

/-- The values and the set objects that a run has come by. -/
structure Store where
  values : List Value := []
  objects : Objects := []

inductive Action where
  | build (v : Value)
  | part (v c : Value)
  | hold (elements : List Value)
  | call (call : Call)
  | widen (pattern : Bytes) (v : Value)

/-- The set objects that a call works on. -/
def Call.operands : Call → List Nat
  | .new | .fromArray _ => []
  | .contains s _ | .add s _ | .remove s _ | .map s _ | .filter s _ | .partition s _ => [s]
  | .union a b | .intersection a b | .difference a b | .symmetricDifference a b | .isSubset a b | .isSuperset a b
  | .isDisjoint a b | .equals a b | .concat a b => [a, b]

/-- The call is on values that the run has, and so is what its callable returns. -/
def Call.Known (s : Store) : Call → Prop
  | .fromArray elements => ∀ v ∈ elements, v ∈ s.values
  | .contains _ value | .add _ value | .remove _ value => value ∈ s.values
  | .map a callable => ∀ i, ∀ x ∈ elementsAt s.objects a, ∀ result, callable i x = .ok result → result ∈ s.values
  | _ => True

/-- The store with the objects that a call leaves. -/
def Store.leave (s : Store) (objects : Objects) : Store where
  values := objects.map (fun set => .set set.elements) ++ s.values
  objects := objects

/-- The steps of a run. A value that is no set is put together from parts that the run has,
    a dictionary with distinct keys; a set comes from a call or from a widening. -/
inductive Step (h : StdHash) (maxSetSize maxCallDepth : Nat) : Store → Action → Store → Prop where
  | build {s : Store} {v : Value} (hparts : ∀ c ∈ v.children, c ∈ s.values) (hset : ∀ elements, v ≠ .set elements)
      (hkeys : ∀ entries, v = .dictionary entries → (entries.map Prod.fst).Nodup) :
      Step h maxSetSize maxCallDepth s (.build v) { s with values := v :: s.values }
  | part {s : Store} {v c : Value} (hv : v ∈ s.values) (hc : c ∈ v.children) :
      Step h maxSetSize maxCallDepth s (.part v c) { s with values := c :: s.values }
  | hold {s : Store} {elements : List Value} (hset : .set elements ∈ s.values) :
      Step h maxSetSize maxCallDepth s (.hold elements) { s with objects := s.objects ++ [{ elements := elements }] }
  | call {s : Store} {call : Call} (hoperands : ∀ a ∈ call.operands, a < s.objects.length) (hknown : call.Known s) :
      Step h maxSetSize maxCallDepth s (.call call) (s.leave ((call.perform h maxSetSize).runFrom s.objects).2)
  | widen {s : Store} {pattern : Bytes} {v : Value} (hv : v ∈ s.values) :
      Step h maxSetSize maxCallDepth s (.widen pattern v)
        { s with values := NumericWidener.widen maxCallDepth v pattern :: s.values }

/-- What a run reaches by actions in `P`. -/
inductive Reachable (h : StdHash) (maxSetSize maxCallDepth : Nat) (P : Action → Prop) : Store → Prop where
  | start : Reachable h maxSetSize maxCallDepth P {}
  | step {s s' : Store} {a : Action} (hs : Reachable h maxSetSize maxCallDepth P s) (ha : P a)
      (hstep : Step h maxSetSize maxCallDepth s a s') : Reachable h maxSetSize maxCallDepth P s'

/-- A widening merges no two elements of a set. -/
def Action.KeepsApart (h : StdHash) (maxCallDepth : Nat) : Action → Prop
  | .widen pattern v => NumericWidener.KeepsApart h (maxCallDepth + 1) pattern v
  | _ => True

/-! ## The invariant -/

variable {h : StdHash} {maxSetSize maxCallDepth : Nat} {s s' : Store} {a : Action}

/-- Some value that the run has is nested too deep to be compared. -/
def Store.Deep (s : Store) : Prop :=
  (∃ v ∈ s.values, ¬ Nested maxDisplayDepth v) ∨ ∃ set ∈ s.objects, ∃ v ∈ set.elements, ¬ Nested maxDisplayDepth v

/-- The values are lawful, and the objects valid. -/
structure Store.Sound (h : StdHash) (s : Store) : Prop where
  values : ∀ v ∈ s.values, Lawful h v
  objects : ∀ set ∈ s.objects, Valid h True set

theorem Store.Sound.fine (hs : s.Sound h) {v : Value} (hv : v ∈ s.values) : Fine h s.Deep v := by
  refine ⟨hs.values v hv, fun hshallow => ?_⟩
  by_contra hdeep
  exact hshallow (.inl ⟨v, hv, hdeep⟩)

theorem Store.Sound.holds (hs : s.Sound h) : Holds h s.Deep (s.objects.map (·.elements)) s.objects := by
  refine ⟨rfl, fun set hset => ⟨⟨fun v hv => ⟨?_, fun hshallow => ?_⟩, ?_⟩, (hs.objects set hset).index⟩⟩
  · exact (hs.objects set hset).sound.lawful v hv
  · by_contra hdeep
    exact hshallow (.inr ⟨set, hset, v, hv, hdeep⟩)
  · exact (hs.objects set hset).sound.unequal

theorem Store.Sound.callFine (hs : s.Sound h) {call : Call} (hknown : call.Known s) :
    call.Fine h s.Deep (s.objects.map (·.elements)) := by
  cases call with
  | fromArray elements => exact fun v hv => hs.fine (hknown v hv)
  | contains _ value | add _ value | remove _ value => exact hs.fine hknown
  | map a callable =>
    intro i x hx result hresult
    rw [← hs.holds.elementsAt] at hx
    exact hs.fine (hknown i x hx result hresult)
  | _ => trivial

/-- What a call leaves, however it ends. -/
theorem Store.Sound.holds_after (maxSetSize : Nat) (hs : s.Sound h) {call : Call} (hknown : call.Known s) :
    ∃ contents, Holds h s.Deep contents ((call.perform h maxSetSize).runFrom s.objects).2 := by
  have hmeets : call.Meets h maxSetSize s.Deep (s.objects.map (·.elements)) := Call.meets (hs.callFine hknown)
  replace hmeets := hmeets s.objects hs.holds
  cases hrun : (call.perform h maxSetSize).runFrom s.objects with
  | mk result objects =>
    rw [hrun] at hmeets
    cases result with
    | ok reply =>
      obtain ⟨contents, -, hholds⟩ := hmeets
      exact ⟨contents, hholds⟩
    | error e => exact ⟨_, hmeets.2⟩

theorem lawful_set {set : SetValue} {D : Prop} (hset : Valid h D set) : Lawful h (.set set.elements) :=
  lawful_of_children hset.sound.lawful hset.sound.unequal

theorem valid_of_lawful {elements : List Value} (hset : Lawful h (.set elements)) : Valid h True { elements := elements } where
  sound := ⟨fun _ hv => ⟨hset.child hv, fun hnot => absurd trivial hnot⟩, hset.distinct⟩
  index := fun _ hkeys => nomatch hkeys

theorem Valid.weaken {set : SetValue} {D : Prop} (hset : Valid h D set) : Valid h True set where
  sound := ⟨fun v hv => ⟨hset.sound.lawful v hv, fun hnot => absurd trivial hnot⟩, hset.sound.unequal⟩
  index := hset.index

/-- A step keeps the store sound, unless it is a widening that merges elements of a set. -/
theorem Step.sound (hs : s.Sound h) (hapart : a.KeepsApart h maxCallDepth)
    (hstep : Step h maxSetSize maxCallDepth s a s') : s'.Sound h := by
  cases hstep with
  | @build v hparts hset hkeys =>
    refine ⟨List.forall_mem_cons.mpr ⟨?_, hs.values⟩, hs.objects⟩
    refine lawful_of_children (fun c hc => hs.values c (hparts c hc)) ?_
    cases v with
    | set elements => exact (hset elements rfl).elim
    | dictionary entries => exact hkeys entries rfl
    | _ => trivial
  | part hv hc => exact ⟨List.forall_mem_cons.mpr ⟨(hs.values _ hv).child hc, hs.values⟩, hs.objects⟩
  | hold hset =>
    refine ⟨hs.values, fun set hmem => ?_⟩
    rcases List.mem_append.mp hmem with hmem | hmem
    · exact hs.objects set hmem
    · rw [List.mem_singleton.mp hmem]
      exact valid_of_lawful (hs.values _ hset)
  | call _ hknown =>
    obtain ⟨contents, hholds⟩ := hs.holds_after maxSetSize hknown
    refine ⟨fun v hv => ?_, fun set hset => (hholds.valid set hset).weaken⟩
    rcases List.mem_append.mp hv with hv | hv
    · obtain ⟨set, hset, rfl⟩ := List.mem_map.mp hv
      exact lawful_set (hholds.valid set hset)
    · exact hs.values v hv
  | widen hv =>
    exact ⟨List.forall_mem_cons.mpr ⟨NumericWidener.lawful_widened (hs.values _ hv) hapart, hs.values⟩, hs.objects⟩

theorem Reachable.sound (hs : Reachable h maxSetSize maxCallDepth (·.KeepsApart h maxCallDepth) s) : s.Sound h := by
  induction hs with
  | start => exact ⟨fun v hv => absurd hv List.not_mem_nil, fun set hset => absurd hset List.not_mem_nil⟩
  | step _ ha hstep ih => exact hstep.sound ih ha

end Luma.SetModule
