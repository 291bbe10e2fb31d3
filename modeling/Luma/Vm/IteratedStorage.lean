-- SUMMARY: No run of a loop's body changes what the iterable of the loop reads.
import Luma.Vm.CopyOnWrite
import Luma.Vm.IterationLaws

/-! # Iterated Storage

What is visible from the iterable of a loop is held by its iterator. A container that an
assignment finds there is therefore held twice and copied before it is written to, so that
the containers on the stack of an assignment are not visible from the iterable. -/

namespace Luma.CopyOnWrite

open Codec Iteration SharedStorage

/-! ## What a body does -/

/-- A slot that leads into the heap, if anywhere. -/
def InHeap (heap : List Storage) (slot : Slot) : Prop := ∀ a, slot = .pointer a → a < heap.length

/-- Storage that an index or a field of a target does not lead into. -/
def IsSealed (heap : List Storage) (slot : Slot) : Prop :=
  ∃ a kind elements, slot = .pointer a ∧ heap[a]? = some (.sealed kind elements)

section Runs

variable (useCount : State → Nat → Nat) (maxDictionarySize : Nat)

/-- What the body of a loop does to the state, between any two of these being any computation whose
    results end up in variables, on the stack or in new storage. A path through a sealed container is
    left out. -/
inductive Step : State → State → Prop where
  | compute {st : State} {bindings temporaries : List Slot}
    (hslots : ∀ slot ∈ bindings ++ temporaries, InHeap st.heap slot) : Step st { st with bindings, temporaries }
  | allocate {st : State} {storage : Storage} (hslots : ∀ slot ∈ storage.slots, InHeap st.heap slot) :
    Step st { st with heap := st.heap ++ [storage], temporaries := .pointer st.heap.length :: st.temporaries }
  | openTarget {st : State} {x : Nat} {slot : Slot} (hslot : (uniqueVariable useCount st x).bindings[x]? = some slot) :
    Step st { uniqueVariable useCount st x with targets := slot :: (uniqueVariable useCount st x).targets }
  | getUnique {st st' : State} {step : PathStep} (hplain : ∀ slot ∈ st.targets.head?, ¬ IsSealed st.heap slot)
    (hget : getUnique useCount st step = some st') : Step st st'
  | setElement {st st' : State} {step : PathStep} {value : Slot} (hvalue : InHeap st.heap value)
    (hset : setElement useCount maxDictionarySize st step value = some st') : Step st st'
  /-- A step that raises may have made the elements of its array unique. -/
  | raise {st : State} {a : Nat} {rest : List Slot} (htargets : st.targets = .pointer a :: rest) :
    Step st { ensureUnique useCount st a with targets := rest }

def Steps : State → State → Prop := Relation.ReflTransGen (Step useCount maxDictionarySize)

end Runs

/-! ## What is visible stays as it is -/

/-- What the iterable leads to is not changed. -/
structure Froze (st st' : State) : Prop where
  iterated : st'.iterated = st.iterated
  frozen : ∀ i, st.iterated = .pointer i → Frozen Storage.pointers st.heap st'.heap i

/-- No assignment finds a container that it could write to among what is visible. -/
def Safe (st : State) (slot : Slot) : Prop :=
  ∀ a, slot = .pointer a → st.Visible a → ∀ storage, st.heap[a]? = some storage → storage.isWritable = false

/-- No dangling pointers, and no container on the stack that could be written to is visible. -/
structure WellFormed (st : State) : Prop where
  closed : Closed Storage.pointers st.heap
  roots : ∀ place slot, st.root place = some slot → InHeap st.heap slot
  safe : ∀ slot ∈ st.targets, Safe st slot

section Visibility

variable {st st' st'' : State} {useCount : State → Nat → Nat} {a b k x : Nat} {slot slot' : Slot} {place : Place}
  {storage : Storage} {heap : List Storage} {rest : List Slot}

theorem mem_pointers : a ∈ storage.pointers ↔ .pointer a ∈ storage.slots := by
  rw [Storage.pointers, List.mem_filterMap]
  constructor
  · rintro ⟨slot, hslot, haddress⟩
    cases slot with
    | data _ => cases haddress
    | pointer b =>
      cases haddress
      exact hslot
  · exact fun h => ⟨_, h, rfl⟩

theorem Froze.refl (st : State) : Froze st st := ⟨rfl, fun i _ => Frozen.refl st.heap i⟩

theorem Froze.trans (h : Froze st st') (h' : Froze st' st'') : Froze st st'' where
  iterated := h'.iterated.trans h.iterated
  frozen := fun i hi => (h.frozen i hi).trans (h'.frozen i (h.iterated.trans hi))

theorem Froze.visible_iff (h : Froze st st') : st'.Visible a ↔ st.Visible a := by
  constructor
  · rintro ⟨i, hi, hreaches⟩
    rw [h.iterated] at hi
    exact ⟨i, hi, (h.frozen i hi).reaches_iff.mp hreaches⟩
  · rintro ⟨i, hi, hreaches⟩
    exact ⟨i, h.iterated.trans hi, (h.frozen i hi).reaches hreaches⟩

theorem Froze.getElem? (h : Froze st st') (ha : st.Visible a) : st'.heap[a]? = st.heap[a]? := by
  obtain ⟨i, hi, hreaches⟩ := ha
  exact h.frozen i hi a hreaches

theorem Froze.safe (h : Froze st st') (hsafe : Safe st slot) : Safe st' slot := by
  intro a ha hvisible storage hget
  have hvisible := h.visible_iff.mp hvisible
  exact hsafe a ha hvisible storage ((h.getElem? hvisible).symm.trans hget)

theorem WellFormed.iterated_lt (h : WellFormed st) {i : Nat} (hi : st.iterated = .pointer i) : i < st.heap.length :=
  h.roots .iterated st.iterated rfl i hi

/-- New storage leaves alone what is visible. -/
theorem froze_append (h : WellFormed st) (more : List Storage) : Froze st { st with heap := st.heap ++ more } :=
  ⟨rfl, fun _ hi => frozen_append h.closed (h.iterated_lt hi) more⟩

theorem not_visible_new (h : WellFormed st) (more : List Storage) :
    ¬ State.Visible { st with heap := st.heap ++ more } st.heap.length := by
  rintro ⟨i, hi, hreaches⟩
  exact not_reaches_new h.closed (h.iterated_lt hi) more hreaches

/-- What is not visible may be overwritten. -/
theorem froze_set (hfree : ¬ st.Visible a) : Froze st { st with heap := st.heap.set a storage } :=
  ⟨rfl, fun i hi => frozen_set fun hreaches => hfree ⟨i, hi, hreaches⟩⟩

theorem InHeap.mono {heap' : List Storage} (h : InHeap heap slot) (hlength : heap.length ≤ heap'.length) : InHeap heap' slot :=
  fun a ha => Nat.lt_of_lt_of_le (h a ha) hlength

/-- What only one place holds is visible only if that place is. -/
theorem not_visible_of_unshared (hcounts : Counts useCount) (hholds : st.Holds a place) (hplace : place ≠ .iterated)
    (hinside : ∀ b k, place = .inside b k → ¬ st.Visible b) (hcount : ¬ useCount st a > 1) : ¬ st.Visible a := by
  rintro ⟨i, hi, hreaches⟩
  have hlast := Relation.ReflTransGen.cases_tail hreaches
  rcases hlast with rfl | ⟨b, hprior, n, hget, hmem⟩
  · have hroot : st.Holds a .iterated := congrArg some hi
    exact hcount (hcounts hplace hholds hroot)
  · obtain ⟨k, hk⟩ := List.mem_iff_getElem?.mp (mem_pointers.mp hmem)
    have hlive : st.Live b := ⟨.iterated, i, congrArg some hi, hprior⟩
    have hfield : st.Holds a (.inside b k) := ⟨hlive, n, hget, hk⟩
    have hne : place ≠ .inside b k := fun h => hinside b k h ⟨i, hi, hprior⟩
    exact hcount (hcounts hne hholds hfield)

/-! ## Making exclusive -/

/-- What making a slot exclusive leaves behind. -/
structure MadeExclusive (st : State) (made : Slot × List Storage) : Prop where
  grown : ∃ more, made.2 = st.heap ++ more
  closed : Closed Storage.pointers made.2
  inHeap : InHeap made.2 made.1
  safe : Safe { st with heap := made.2 } made.1

theorem makeExclusive_spec (hcounts : Counts useCount) (h : WellFormed st) (hslot : InHeap st.heap slot)
    (hholds : ∀ a, slot = .pointer a → st.Holds a place) (hplace : place ≠ .iterated)
    (hinside : ∀ b k, place = .inside b k → ¬ st.Visible b) : MadeExclusive st (makeExclusive useCount st slot) := by
  have hkept (hsafe : Safe st slot) : MadeExclusive st (slot, st.heap) :=
    ⟨⟨[], (List.append_nil _).symm⟩, h.closed, hslot, hsafe⟩
  unfold makeExclusive
  cases slot with
  | data value => exact hkept fun _ ha => by cases ha
  | pointer a =>
    dsimp only
    cases hget : st.heap[a]? with
    | none =>
      refine hkept fun a' ha' _ storage hstorage => ?_
      cases ha'
      cases hget.symm.trans hstorage
    | some storage =>
      dsimp only
      split
      next hcopy =>
        have hpointers : ∀ b ∈ storage.pointers, b < st.heap.length := h.closed storage (List.mem_of_getElem? hget)
        refine ⟨⟨[storage], rfl⟩, h.closed.append hpointers, fun a' ha' => ?_, fun a' ha' hvisible => ?_⟩
        · cases ha'
          simp
        · cases ha'
          exact absurd hvisible (not_visible_new h [storage])
      next hcopy =>
        refine hkept fun a' ha' hvisible storage' hstorage' => ?_
        cases ha'
        cases hget.symm.trans hstorage'
        by_contra hwritable
        rw [Bool.not_eq_false] at hwritable
        rw [hwritable, Bool.true_and, decide_eq_true_eq] at hcopy
        exact not_visible_of_unshared hcounts (hholds a rfl) hplace hinside hcopy hvisible

/-! ## The operations of an assignment -/

/-- A change that leaves alone what is visible, and the slots outside the storage in place. -/
structure Keeps (st st' : State) : Prop where
  wellFormed : WellFormed st'
  froze : Froze st st'
  grown : st.heap.length ≤ st'.heap.length

theorem Keeps.trans (h : Keeps st st') (h' : Keeps st' st'') : Keeps st st'' :=
  ⟨h'.wellFormed, h.froze.trans h'.froze, Nat.le_trans h.grown h'.grown⟩

/-- Where the slots of a list are among those of another and one more. -/
theorem roots_of_slots (hroots : ∀ place slot, st.root place = some slot → InHeap heap slot)
    (hbindings : ∀ slot ∈ st'.bindings, slot ∈ st.bindings ∨ InHeap heap slot)
    (htemporaries : ∀ slot ∈ st'.temporaries, slot ∈ st.temporaries ∨ InHeap heap slot)
    (htargets : ∀ slot ∈ st'.targets, slot ∈ st.targets ∨ InHeap heap slot) (hiterated : st'.iterated = st.iterated) :
    ∀ place slot, st'.root place = some slot → InHeap heap slot := by
  intro place slot hroot
  cases place with
  | binding i =>
    rcases hbindings slot (List.mem_of_getElem? hroot) with hold | hnew
    · obtain ⟨j, hj⟩ := List.mem_iff_getElem?.mp hold
      exact hroots (.binding j) slot hj
    · exact hnew
  | temporary i =>
    rcases htemporaries slot (List.mem_of_getElem? hroot) with hold | hnew
    · obtain ⟨j, hj⟩ := List.mem_iff_getElem?.mp hold
      exact hroots (.temporary j) slot hj
    · exact hnew
  | target i =>
    rcases htargets slot (List.mem_of_getElem? hroot) with hold | hnew
    · obtain ⟨j, hj⟩ := List.mem_iff_getElem?.mp hold
      exact hroots (.target j) slot hj
    · exact hnew
  | iterated =>
    rw [State.root, hiterated] at hroot
    exact hroots .iterated slot hroot
  | inside _ _ => cases hroot

theorem WellFormed.roots_mono (h : WellFormed st) (hlength : st.heap.length ≤ heap.length) :
    ∀ place slot, st.root place = some slot → InHeap heap slot :=
  fun place slot hroot => (h.roots place slot hroot).mono hlength

theorem grown_length (h : ∃ more, heap = st.heap ++ more) : st.heap.length ≤ heap.length := by
  obtain ⟨more, rfl⟩ := h
  rw [List.length_append]
  exact Nat.le_add_right _ _

/-- The variable that an assignment starts from is not visible in what the assignment could write to. -/
theorem uniqueVariable_keeps (hcounts : Counts useCount) (h : WellFormed st) (x : Nat) :
    Keeps st (uniqueVariable useCount st x) ∧
      ∀ slot, (uniqueVariable useCount st x).bindings[x]? = some slot → Safe (uniqueVariable useCount st x) slot := by
  rw [uniqueVariable]
  cases hslot : st.bindings[x]? with
  | none =>
    refine ⟨⟨h, Froze.refl st, Nat.le_refl _⟩, fun slot hslot' => ?_⟩
    dsimp only at hslot'
    cases hslot.symm.trans hslot'
  | some slot =>
    dsimp only
    have hx : x < st.bindings.length := (List.getElem?_eq_some_iff.mp hslot).1
    have hmade : MadeExclusive st (makeExclusive useCount st slot) := by
      have hplace : Place.binding x ≠ .iterated := by simp
      refine makeExclusive_spec hcounts h (h.roots (.binding x) slot hslot) ?_ hplace ?_
      · rintro a rfl
        exact hslot
      · simp
    obtain ⟨hgrown, hclosed, hinHeap, hsafe⟩ := hmade
    generalize makeExclusive useCount st slot = made at hgrown hclosed hinHeap hsafe ⊢
    obtain ⟨slot', heap'⟩ := made
    dsimp only at hgrown hclosed hinHeap hsafe ⊢
    have hlength := grown_length hgrown
    have hfroze : Froze st { st with heap := heap', bindings := st.bindings.set x slot' } := by
      obtain ⟨more, rfl⟩ := hgrown
      exact ⟨rfl, (froze_append h more).frozen⟩
    refine ⟨⟨⟨hclosed, ?_, fun slot hslot => hfroze.safe (h.safe slot hslot)⟩, hfroze, hlength⟩, fun slot'' hslot'' => ?_⟩
    · refine roots_of_slots (h.roots_mono hlength) ?_ (fun _ h => .inl h) (fun _ h => .inl h) rfl
      intro other hother
      rcases List.mem_or_eq_of_mem_set hother with hold | rfl
      · exact .inl hold
      · exact .inr hinHeap
    · rw [List.getElem?_set_self hx] at hslot''
      cases hslot''
      exact hsafe

theorem ensureUnique_targets : (ensureUnique useCount st a).targets = st.targets := by
  unfold ensureUnique
  split
  · split
    · rfl
    · split <;> rfl
  · rfl

/-- Afterwards the elements of the array are not visible either. -/
theorem ensureUnique_keeps (hcounts : Counts useCount) (h : WellFormed st) (htarget : .pointer a ∈ st.targets) :
    Keeps st (ensureUnique useCount st a) ∧ ∀ v, (ensureUnique useCount st a).heap[a]? = some (.array v) →
      ¬ (ensureUnique useCount st a).Visible v := by
  have hkept (hvector : ∀ v, st.heap[a]? = some (.array v) → ¬ st.Visible v) :
      Keeps st st ∧ ∀ v, st.heap[a]? = some (.array v) → ¬ st.Visible v :=
    ⟨⟨h, Froze.refl st, Nat.le_refl _⟩, hvector⟩
  have hsafe := h.safe (.pointer a) htarget a rfl
  unfold ensureUnique
  split
  next v harray =>
    have hfree : ¬ st.Visible a := fun hvisible => by cases hsafe hvisible _ harray
    split
    next hnone =>
      have hv := h.closed _ (List.mem_of_getElem? harray) v (mem_pointers.mpr List.mem_cons_self)
      rw [List.getElem?_eq_getElem hv] at hnone
      cases hnone
    next storage hstorage =>
      split
      next hshared =>
        have hlast : (st.heap ++ [storage]).length = st.heap.length + 1 := List.length_append
        have hgrown := froze_append h [storage]
        have hfree' : ¬ State.Visible { st with heap := st.heap ++ [storage] } a := fun hvisible =>
          hfree (hgrown.visible_iff.mp hvisible)
        have hfroze : Froze st { st with heap := (st.heap ++ [storage]).set a (.array st.heap.length) } :=
          hgrown.trans (froze_set hfree')
        have hlength : st.heap.length ≤ ((st.heap ++ [storage]).set a (.array st.heap.length)).length := by
          rw [List.length_set, hlast]
          exact Nat.le_succ _
        have hclosed : Closed Storage.pointers ((st.heap ++ [storage]).set a (.array st.heap.length)) := by
          refine (h.closed.append (h.closed storage (List.mem_of_getElem? hstorage))).set fun b hb => ?_
          have hb := mem_pointers.mp hb
          rw [Storage.slots, List.mem_singleton] at hb
          cases hb
          rw [hlast]
          exact Nat.lt_succ_self _
        refine ⟨⟨⟨hclosed, h.roots_mono hlength, fun slot hslot => hfroze.safe (h.safe slot hslot)⟩, hfroze, hlength⟩,
          fun v' hv' hvisible => ?_⟩
        have ha : a < st.heap.length := (List.getElem?_eq_some_iff.mp harray).1
        dsimp only at hv'
        rw [List.getElem?_set_self (by omega)] at hv'
        cases hv'
        exact not_visible_new h [storage] ((froze_set hfree').visible_iff.mp hvisible)
      next hunshared =>
        refine hkept fun v' hv' => ?_
        cases harray.symm.trans hv'
        obtain ⟨i, hi⟩ := List.mem_iff_getElem?.mp htarget
        have hholds : st.Holds v (.inside a 0) := ⟨⟨.target i, a, hi, .refl⟩, _, harray, rfl⟩
        refine not_visible_of_unshared hcounts hholds (by simp) ?_ hunshared
        rintro b k hplace
        cases hplace
        exact hfree
  next hother =>
    exact hkept fun v hv => absurd hv (hother v)

/-- Overwriting what is not visible. -/
theorem set_keeps (h : WellFormed st) (hfree : ¬ st.Visible b) (hslots : ∀ slot ∈ storage.slots, InHeap st.heap slot) :
    Keeps st { st with heap := st.heap.set b storage } := by
  have hfroze : Froze st { st with heap := st.heap.set b storage } := froze_set hfree
  have hlength : st.heap.length ≤ (st.heap.set b storage).length := by rw [List.length_set]
  have hclosed : Closed Storage.pointers (st.heap.set b storage) :=
    h.closed.set fun c hc => hslots (.pointer c) (mem_pointers.mp hc) c rfl
  exact ⟨⟨hclosed, h.roots_mono hlength, fun slot hslot => hfroze.safe (h.safe slot hslot)⟩, hfroze, hlength⟩

/-- Other containers on the stack. -/
theorem retarget_keeps (h : WellFormed st) {targets : List Slot} (hsafe : ∀ slot ∈ targets, Safe st slot)
    (hinHeap : ∀ slot ∈ targets, InHeap st.heap slot) : Keeps st { st with targets } := by
  refine ⟨⟨h.closed, ?_, hsafe⟩, ⟨rfl, fun i _ => Frozen.refl st.heap i⟩, Nat.le_refl _⟩
  exact roots_of_slots h.roots (fun _ h => .inl h) (fun _ h => .inl h) (fun slot hslot => .inr (hinHeap slot hslot)) rfl

theorem slots_inHeap (h : WellFormed st) (hget : st.heap[b]? = some storage) (hslot : slot ∈ storage.slots) :
    InHeap st.heap slot := by
  rintro a rfl
  exact h.closed storage (List.mem_of_getElem? hget) a (mem_pointers.mpr hslot)

/-- Writing brings in the slot that is written alone. -/
theorem mem_slots_write (h : slot' ∈ (storage.write slot k).slots) : slot' = slot ∨ slot' ∈ storage.slots := by
  have hmodify {entries : List (Bytes × Slot)}
      (hmem : slot' ∈ (entries.modify k fun entry => (entry.1, slot)).map Prod.snd) :
      slot' = slot ∨ slot' ∈ entries.map Prod.snd := by
    obtain ⟨entry, hentry, rfl⟩ := List.mem_map.mp hmem
    obtain ⟨j, hj⟩ := List.mem_iff_getElem?.mp hentry
    rw [List.getElem?_modify] at hj
    obtain ⟨entry', hentry', rfl⟩ := Option.map_eq_some_iff.mp hj
    split
    · exact .inl rfl
    · exact .inr (List.mem_map_of_mem (List.mem_of_getElem? hentry'))
  cases storage with
  | vector elements => exact (List.mem_or_eq_of_mem_set h).symm
  | array _ => exact .inr h
  | dictionary entries => exact hmodify h
  | record _ fields => exact hmodify h
  | sealed _ _ => exact .inr h

/-- What a step selects in a container that is not visible is not visible, and the container holds it. -/
theorem locate_spec (hsafe : Safe st (.pointer a)) (hvector : ∀ v, st.heap[a]? = some (.array v) → ¬ st.Visible v)
    (hplain : ∀ kind elements, st.heap[a]? ≠ some (.sealed kind elements)) {step : PathStep}
    (hlocate : locate st.heap a step = some (b, k)) :
    ¬ st.Visible b ∧ Reaches Storage.pointers st.heap a b ∧ ∀ kind elements, st.heap[b]? ≠ some (.sealed kind elements) := by
  have hthis {storage : Storage} (hget : st.heap[a]? = some storage) (hwritable : storage.isWritable = true) :
      ¬ st.Visible a := by
    intro hvisible
    rw [hsafe a rfl hvisible storage hget] at hwritable
    cases hwritable
  unfold locate at hlocate
  split at hlocate
  next v i harray =>
    split at hlocate
    next elements helements =>
      split at hlocate
      · cases hlocate
      · cases hlocate
        refine ⟨hvector _ harray, .single ⟨_, harray, mem_pointers.mpr List.mem_cons_self⟩, fun kind elements' hget => ?_⟩
        cases helements.symm.trans hget
    · cases hlocate
  next entries key hget =>
    obtain ⟨p, -, heq⟩ := Option.map_eq_some_iff.mp hlocate
    cases heq
    exact ⟨hthis hget rfl, .refl, hplain⟩
  next typeName fields name hget =>
    obtain ⟨p, -, heq⟩ := Option.map_eq_some_iff.mp hlocate
    cases heq
    exact ⟨hthis hget rfl, .refl, hplain⟩
  next kind elements i hget => exact absurd hget (hplain kind elements)
  next => cases hlocate

/-- The kind of a container stays. -/
theorem ensureUnique_sealed {kind : Sealed} {elements : List Slot}
    (hget : (ensureUnique useCount st a).heap[a]? = some (.sealed kind elements)) (ha : a < st.heap.length) :
    st.heap[a]? = some (.sealed kind elements) := by
  unfold ensureUnique at hget
  split at hget
  · split at hget
    · exact hget
    · split at hget
      · dsimp only at hget
        rw [List.getElem?_set_self (by rw [List.length_append]; omega)] at hget
        cases hget
      · exact hget
  · exact hget

theorem getUnique_keeps (hcounts : Counts useCount) (h : WellFormed st) {step : PathStep}
    (hplain : ∀ slot ∈ st.targets.head?, ¬ IsSealed st.heap slot) (hget : getUnique useCount st step = some st') :
    Keeps st st' := by
  unfold getUnique at hget
  split at hget
  next a rest htargets =>
    have htarget : .pointer a ∈ st.targets := htargets ▸ List.mem_cons_self
    obtain ⟨hkeeps, hvector⟩ := ensureUnique_keeps hcounts h htarget
    have hunsealed : ∀ kind elements, (ensureUnique useCount st a).heap[a]? ≠ some (.sealed kind elements) := by
      intro kind elements hsealed
      have ha : a < st.heap.length := by
        obtain ⟨i, hi⟩ := List.mem_iff_getElem?.mp htarget
        exact h.roots (.target i) _ hi a rfl
      refine hplain (.pointer a) ?_ ⟨a, kind, elements, rfl, ensureUnique_sealed hsealed ha⟩
      rw [htargets]
      rfl
    have htargets' : (ensureUnique useCount st a).targets = .pointer a :: rest := ensureUnique_targets.trans htargets
    generalize ensureUnique useCount st a = st₁ at hget hkeeps hvector hunsealed htargets'
    refine hkeeps.trans ?_
    have h₁ := hkeeps.wellFormed
    have htarget₁ : .pointer a ∈ st₁.targets := htargets' ▸ List.mem_cons_self
    dsimp only at hget
    split at hget
    · cases hget
    next b k hlocate =>
      obtain ⟨hfree, hreaches, hplain'⟩ := locate_spec (h₁.safe _ htarget₁) hvector hunsealed hlocate
      split at hget
      · cases hget
      next storage hstorage =>
        split at hget
        · cases hget
        next slot hslot =>
          split at hget
          next kind elements => exact absurd hstorage (hplain' kind elements)
          next =>
            have hslot' := List.mem_of_getElem? hslot
            have hmade : MadeExclusive st₁ (makeExclusive useCount st₁ slot) := by
              have hplace : Place.inside b k ≠ .iterated := by simp
              refine makeExclusive_spec hcounts h₁ (slots_inHeap h₁ hstorage hslot') ?_ hplace ?_
              · rintro c rfl
                obtain ⟨i, hi⟩ := List.mem_iff_getElem?.mp htarget₁
                exact ⟨⟨.target i, a, hi, hreaches⟩, storage, hstorage, hslot⟩
              · rintro b' k' hplace
                cases hplace
                exact hfree
            obtain ⟨⟨more, hmore⟩, hclosed, hinHeap, hsafe⟩ := hmade
            generalize makeExclusive useCount st₁ slot = made at hget hmore hclosed hinHeap hsafe
            obtain ⟨slot', heap'⟩ := made
            dsimp only at hget hmore hclosed hinHeap hsafe
            subst hmore
            cases hget
            have hgrown : Keeps st₁ { st₁ with heap := st₁.heap ++ more } := by
              have hlength : st₁.heap.length ≤ (st₁.heap ++ more).length := grown_length ⟨more, rfl⟩
              have hfroze := froze_append h₁ more
              exact ⟨⟨hclosed, h₁.roots_mono hlength, fun slot hslot => hfroze.safe (h₁.safe slot hslot)⟩, hfroze, hlength⟩
            have hfree' : ¬ State.Visible { st₁ with heap := st₁.heap ++ more } b := fun hvisible =>
              hfree (hgrown.froze.visible_iff.mp hvisible)
            have hslots : ∀ other ∈ (storage.write slot' k).slots, InHeap (st₁.heap ++ more) other := by
              intro other hother
              rcases mem_slots_write hother with rfl | hold
              · exact hinHeap
              · exact (slots_inHeap h₁ hstorage hold).mono hgrown.grown
            have hwritten := set_keeps hgrown.wellFormed hfree' hslots
            refine (hgrown.trans hwritten).trans (retarget_keeps hwritten.wellFormed ?_ ?_)
            · intro other hother
              rcases List.mem_cons.mp hother with rfl | hother
              · exact hwritten.froze.safe hsafe
              · exact hwritten.wellFormed.safe other (htargets' ▸ List.mem_cons_of_mem _ hother)
            · intro other hother
              rcases List.mem_cons.mp hother with rfl | hother
              · exact hinHeap.mono hwritten.grown
              · obtain ⟨i, hi⟩ := List.mem_iff_getElem?.mp (htargets' ▸ List.mem_cons_of_mem _ hother)
                exact hwritten.wellFormed.roots (.target i) other hi
  · cases hget

/-- The containers of other assignments stay on the stack. -/
theorem pop_keeps (h : WellFormed st) (htargets : st.targets = slot :: rest) : Keeps st { st with targets := rest } := by
  have hmem : ∀ other ∈ rest, other ∈ st.targets := fun other hother => htargets ▸ List.mem_cons_of_mem slot hother
  refine retarget_keeps h (fun other hother => h.safe other (hmem other hother)) fun other hother => ?_
  obtain ⟨i, hi⟩ := List.mem_iff_getElem?.mp (hmem other hother)
  exact h.roots (.target i) other hi

theorem setElement_keeps (hcounts : Counts useCount) (h : WellFormed st) {maxDictionarySize : Nat} {step : PathStep}
    {value : Slot} (hvalue : InHeap st.heap value) (hset : setElement useCount maxDictionarySize st step value = some st') :
    Keeps st st' := by
  unfold setElement at hset
  split at hset
  next a rest htargets =>
    have htarget : .pointer a ∈ st.targets := htargets ▸ List.mem_cons_self
    obtain ⟨hkeeps, hvector⟩ := ensureUnique_keeps hcounts h htarget
    have htargets' : (ensureUnique useCount st a).targets = .pointer a :: rest := ensureUnique_targets.trans htargets
    have hvalue := hvalue.mono hkeeps.grown
    generalize ensureUnique useCount st a = st₁ at hset hkeeps hvector hvalue htargets'
    refine hkeeps.trans ?_
    have h₁ := hkeeps.wellFormed
    have hsafe := h₁.safe (.pointer a) (htargets' ▸ List.mem_cons_self)
    have hwrite {b : Nat} {storage : Storage} (hfree : ¬ st₁.Visible b)
        (hslots : ∀ slot ∈ storage.slots, InHeap st₁.heap slot) :
        Keeps st₁ { st₁ with heap := st₁.heap.set b storage, targets := rest } := by
      have hwritten := set_keeps h₁ hfree hslots
      exact hwritten.trans (pop_keeps hwritten.wellFormed htargets')
    dsimp only at hset
    split at hset
    · cases hset
    · cases hset
    · cases hset
    next storage hvectorless hsealedless hstorage =>
      have hunsealed : ∀ kind elements, st₁.heap[a]? ≠ some (.sealed kind elements) := by
        intro kind elements hsealed
        cases hstorage.symm.trans hsealed
        exact hsealedless _ _ rfl
      split at hset
      next b k hlocate =>
        obtain ⟨hfree, -, -⟩ := locate_spec hsafe hvector hunsealed hlocate
        split at hset
        · cases hset
        next target htarget' =>
          cases hset
          refine hwrite hfree fun other hother => ?_
          rcases mem_slots_write hother with rfl | hold
          · exact hvalue
          · exact slots_inHeap h₁ htarget' hold
      next entries key hlocate =>
        split at hset
        · cases hset
        · cases hset
          have hfree : ¬ st₁.Visible a := fun hvisible => by cases hsafe a rfl hvisible _ hstorage
          refine hwrite hfree fun other hother => ?_
          rw [Storage.slots, List.map_append, List.mem_append] at hother
          rcases hother with hold | hnew
          · exact slots_inHeap h₁ hstorage hold
          · rw [List.map_singleton, List.mem_singleton] at hnew
            exact hnew ▸ hvalue
      · cases hset
  · cases hset

/-! ## Runs -/

theorem Step.keeps {maxDictionarySize : Nat} (hcounts : Counts useCount) (hstep : Step useCount maxDictionarySize st st')
    (h : WellFormed st) : Keeps st st' := by
  cases hstep with
  | @compute bindings temporaries hslots =>
    have hfroze : Froze st { st with bindings, temporaries } := ⟨rfl, fun i _ => Frozen.refl st.heap i⟩
    refine ⟨⟨h.closed, ?_, fun slot hslot => hfroze.safe (h.safe slot hslot)⟩, hfroze, Nat.le_refl _⟩
    refine roots_of_slots h.roots (fun slot hslot => .inr ?_) (fun slot hslot => .inr ?_) (fun _ h => .inl h) rfl
    · exact hslots slot (List.mem_append_left _ hslot)
    · exact hslots slot (List.mem_append_right _ hslot)
  | @allocate storage hslots =>
    have hlength : (st.heap ++ [storage]).length = st.heap.length + 1 := List.length_append
    have hclosed : Closed Storage.pointers (st.heap ++ [storage]) :=
      h.closed.append fun b hb => hslots (.pointer b) (mem_pointers.mp hb) b rfl
    have hfroze : Froze st { st with heap := st.heap ++ [storage], temporaries := .pointer st.heap.length :: st.temporaries } :=
      ⟨rfl, (froze_append h [storage]).frozen⟩
    refine ⟨⟨hclosed, ?_, fun slot hslot => hfroze.safe (h.safe slot hslot)⟩, hfroze, by rw [hlength]; omega⟩
    refine roots_of_slots (h.roots_mono (by rw [hlength]; omega)) (fun _ h => .inl h) (fun slot hslot => ?_)
      (fun _ h => .inl h) rfl
    rcases List.mem_cons.mp hslot with rfl | hold
    · refine .inr fun a ha => ?_
      cases ha
      rw [hlength]
      exact Nat.lt_succ_self _
    · exact .inl hold
  | @openTarget x slot hslot =>
    obtain ⟨hkeeps, hsafe⟩ := uniqueVariable_keeps hcounts h x
    refine hkeeps.trans (retarget_keeps hkeeps.wellFormed ?_ ?_)
    · intro other hother
      rcases List.mem_cons.mp hother with rfl | hold
      · exact hsafe other hslot
      · exact hkeeps.wellFormed.safe other hold
    · intro other hother
      rcases List.mem_cons.mp hother with rfl | hold
      · exact hkeeps.wellFormed.roots (.binding x) other hslot
      · obtain ⟨i, hi⟩ := List.mem_iff_getElem?.mp hold
        exact hkeeps.wellFormed.roots (.target i) other hi
  | getUnique hplain hget => exact getUnique_keeps hcounts h hplain hget
  | setElement hvalue hset => exact setElement_keeps hcounts h hvalue hset
  | @raise a rest htargets =>
    obtain ⟨hkeeps, -⟩ := ensureUnique_keeps hcounts h (htargets ▸ List.mem_cons_self)
    exact hkeeps.trans (pop_keeps hkeeps.wellFormed (ensureUnique_targets.trans htargets))

theorem Steps.keeps {maxDictionarySize : Nat} (hcounts : Counts useCount) (hsteps : Steps useCount maxDictionarySize st st')
    (h : WellFormed st) : Keeps st st' := by
  induction hsteps with
  | refl => exact ⟨h, Froze.refl st, Nat.le_refl _⟩
  | tail _ hstep ih => exact ih.trans (hstep.keeps hcounts ih.wellFormed)

/-! ## Values read -/

theorem readSlot_congr {f g : Nat → Option Value} (hsame : ∀ b, slot = .pointer b → f b = g b) :
    readSlot f slot = readSlot g slot := by
  cases slot with
  | data value => rfl
  | pointer a => exact hsame a rfl

theorem mapM_congr {α β : Type} {f g : α → Option β} {xs : List α} (hsame : ∀ x ∈ xs, f x = g x) : xs.mapM f = xs.mapM g := by
  induction xs with
  | nil => rfl
  | cons x xs ih =>
    rw [List.mapM_cons, List.mapM_cons, hsame x List.mem_cons_self, ih fun y hy => hsame y (List.mem_cons_of_mem x hy)]

theorem value_local : Local Storage.pointers Storage.value := by
  intro f g storage hsame
  have hslot {slot : Slot} (hmem : slot ∈ storage.slots) : readSlot f slot = readSlot g slot := by
    refine readSlot_congr fun b hb => hsame b (mem_pointers.mpr ?_)
    exact hb ▸ hmem
  have hentries {entries : List (Bytes × Slot)} (hmem : ∀ entry ∈ entries, entry.2 ∈ storage.slots) :
      entries.mapM (readEntry f) = entries.mapM (readEntry g) := by
    refine mapM_congr fun entry hentry => ?_
    rw [readEntry, readEntry, hslot (hmem entry hentry)]
  have helements : storage.slots.mapM (readSlot f) = storage.slots.mapM (readSlot g) := mapM_congr fun slot h => hslot h
  cases storage with
  | vector elements => exact congrArg (Option.map Value.array) helements
  | array elements => exact hslot List.mem_cons_self
  | dictionary entries =>
    rw [Storage.value, Storage.value, hentries fun entry hentry => List.mem_map_of_mem hentry]
  | record typeName fields =>
    rw [Storage.value, Storage.value, hentries fun entry hentry => List.mem_map_of_mem hentry]
  | sealed kind elements => exact congrArg (Option.map kind.value) helements

/-- The iterable reads as before. -/
theorem Froze.valueOf_eq (h : Froze st st') (depth : Nat) : valueOf depth st'.heap st'.iterated = valueOf depth st.heap st.iterated := by
  rw [h.iterated, valueOf, valueOf]
  exact readSlot_congr fun i hi => (h.frozen i hi).readAt_eq value_local depth

end Visibility

/-! ## Loops -/

section Loops

variable {useCount : State → Nat → Nat} {maxDictionarySize depth : Nat} {states : Nat → State} {iterable : Value}

/-- The state in which a loop starts: no dangling pointers, and no assignment of its body begun. -/
structure Starts (st : State) : Prop where
  closed : Closed Storage.pointers st.heap
  roots : ∀ place slot, st.root place = some slot → InHeap st.heap slot
  targets : st.targets = []

theorem Starts.wellFormed {st : State} (h : Starts st) : WellFormed st := by
  refine ⟨h.closed, h.roots, fun slot hslot => ?_⟩
  rw [h.targets] at hslot
  cases hslot

/-- Every round finds the iterable as the first did. -/
theorem iterable_stays (hcounts : Counts useCount) (h : Starts (states 0))
    (hbody : ∀ round, Steps useCount maxDictionarySize (states round) (states (round + 1)))
    (round : Nat) : valueOf depth (states round).heap (states round).iterated = valueOf depth (states 0).heap (states 0).iterated := by
  have hkeeps : Keeps (states 0) (states round) := by
    induction round with
    | zero => exact ⟨h.wellFormed, Froze.refl _, Nat.le_refl _⟩
    | succ round ih => exact ih.trans ((hbody round).keeps hcounts ih.wellFormed)
  exact hkeeps.froze.valueOf_eq depth

end Loops

/-- Hashes that are all alike. -/
def constantHash : StdHash := ⟨fun _ => 0, fun _ => 0, fun _ => 0, fun _ => 0, fun _ => 0, fun _ => 0⟩

def defaultLimits : LoopLimits := ⟨10000000, 1000000000000000000⟩

/-- A body that takes no back edges. -/
def plainBody : Body := ⟨fun _ counters => some counters, fun h => by cases h; exact Int.le_refl _⟩

/-- An array that a variable and an iterator hold, before and after a write to the variable. -/
def sharedArray : Nat → State
  | 0 => ⟨[.array 1, .vector [.data (.integer 1), .data (.integer 2)]], [.pointer 0], [], [], .pointer 0⟩
  | _ + 1 =>
    ⟨[.array 1, .vector [.data (.integer 1), .data (.integer 2)], .array 3, .vector [.data (.integer 9), .data (.integer 2)]],
      [.pointer 2], [], [], .pointer 0⟩

end Luma.CopyOnWrite
