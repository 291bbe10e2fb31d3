-- SUMMARY: What a join of a task scope has collected, and what it returns or throws.
import Luma.Concurrency.TaskScope
import Mathlib.Data.List.Perm.Subperm

/-! # Scope Joins

A join collects every child once, whatever its children do meanwhile. It returns their results
in the order they were spawned if none failed, and otherwise throws the error it met first,
with the scope cancelled. -/

namespace Luma.Concurrency

variable {V E : Type}

/-! ## What can happen to a child -/

/-- A promise is set once, and a task is claimed once. -/
structure Child.Later (c c' : Child V E) : Prop where
  valid : c'.valid = c.valid
  resolution : c.resolution.isSome → c'.resolution = c.resolution
  claim : c.claim ≠ some .unstarted → c'.claim = c.claim

theorem Child.Later.refl (c : Child V E) : Child.Later c c := ⟨rfl, fun _ => rfl, fun _ => rfl⟩

theorem Child.Later.claimStart {c : Child V E} : Child.Later c c.claimStart := by
  unfold Child.claimStart
  split
  next h => exact ⟨rfl, fun _ => rfl, fun hclaimed => absurd h hclaimed⟩
  · exact .refl c

theorem Child.Later.resolve {c : Child V E} {r : Resolution V E} : Child.Later c (c.resolve r) := by
  unfold Child.resolve
  split
  · exact .refl c
  next h => exact ⟨rfl, fun hset => absurd (.inr (.inr hset)) h, fun _ => rfl⟩

/-- A settled child stays as it is. -/
theorem Child.Later.settled {c c' : Child V E} (h : Child.Later c c') (hsettled : c.settled = true) :
    c'.settled = true ∧ c'.error = c.error := by
  unfold Child.settled at hsettled ⊢
  unfold Child.error
  rw [h.valid]
  cases hvalid : c.valid with
  | false => simp
  | true =>
    rw [hvalid] at hsettled
    have hset : c.resolution.isSome := by simpa using hsettled
    rw [h.resolution hset]
    simpa using hset

theorem Child.Later.value [Inhabited V] {c c' : Child V E} (h : Child.Later c c') (hsettled : c.settled = true) :
    c'.value = c.value := by
  unfold Child.settled at hsettled
  unfold Child.value
  rw [h.valid]
  cases hvalid : c.valid with
  | false => rfl
  | true =>
    rw [hvalid] at hsettled
    rw [h.resolution (by simpa using hsettled)]

/-- Every task of a scope may have gone on. -/
def TaskScope.Later (s s' : TaskScope V E) : Prop := ∀ id, Child.Later (s.tasks id) (s'.tasks id)

theorem TaskScope.later_update {s : TaskScope V E} {id : Nat} {f : Child V E → Child V E}
    (h : Child.Later (s.tasks id) (f (s.tasks id))) : s.Later (s.update id f) := by
  intro id'
  by_cases hid : id' = id
  · subst hid
    simpa [TaskScope.update] using h
  · simpa [TaskScope.update, hid] using Child.Later.refl _

theorem TaskScope.later_apply (s : TaskScope V E) (e : ScopeEvent V E) : s.Later (s.apply e) := by
  cases e with
  | claimStart id => exact later_update .claimStart
  | resolve id r => exact later_update .resolve
  | cancel id => exact later_update ⟨rfl, fun _ => rfl, fun _ => rfl⟩
  | cancelOuter => exact fun id => .refl _

theorem TaskScope.later_abandon {s : TaskScope V E} {id : Nat} (h : (s.tasks id).claim = some .unstarted) :
    s.Later (s.update id Child.abandon) :=
  TaskScope.later_update ⟨rfl, fun _ => rfl, fun hclaimed => absurd h hclaimed⟩

theorem TaskScope.later_handler {s : TaskScope V E} {id : Nat} :
    s.Later (s.update id Child.runHandler) := by
  refine TaskScope.later_update ⟨rfl, fun hset => ?_, fun _ => rfl⟩
  obtain ⟨r, hr⟩ := Option.isSome_iff_exists.mp hset
  simp [Child.runHandler, hr]

/-! ## What has been collected -/

namespace Joining

/-- The genuine error of the child at a position. -/
def errorAt (s : Joining V E) (i : Nat) : Option E := s.join.snapshot[i]?.bind fun id => (s.scope.tasks id).error

variable [Inhabited V]

/-- Each position is collected once, when its child has settled, with its value, and the first
    error that was met has cancelled the scope. -/
structure Collects (s : Joining V E) : Prop where
  resultsLength : s.join.results.length = s.join.snapshot.length
  collectedLength : s.join.collected.length = s.join.snapshot.length
  once : s.join.order.Nodup
  mem_order : ∀ i, i ∈ s.join.order ↔ s.join.collected[i]? = some true
  remaining : s.join.remaining + s.join.order.length = s.join.snapshot.length
  settled : ∀ i id, s.join.snapshot[i]? = some id → i ∈ s.join.order → (s.scope.tasks id).settled = true
  results : ∀ i id, s.join.snapshot[i]? = some id → i ∈ s.join.order →
    s.join.results[i]? = some (s.scope.tasks id).value
  firstError : s.join.firstError = s.join.order.findSome? s.errorAt
  cancelled : s.join.firstError.isSome → s.scope.cancelled = true

variable {s s' : Joining V E}

theorem collects_joinAll (mode : JoinMode) (scope : TaskScope V E) : Collects (joinAll mode scope) where
  resultsLength := by simp [joinAll]
  collectedLength := by simp [joinAll]
  once := List.nodup_nil
  mem_order i := by
    constructor
    · intro h
      cases h
    · intro h
      have hmem := List.mem_of_getElem? h
      simp [joinAll] at hmem
  remaining := rfl
  settled i id _ h := by cases h
  results i id _ h := by cases h
  firstError := rfl
  cancelled h := by cases h

/-- A position that was collected is one of the children's. -/
theorem Collects.lt_length (h : Collects s) {i : Nat} (hi : i ∈ s.join.order) : i < s.join.snapshot.length := by
  rw [← h.collectedLength]
  exact (List.getElem?_eq_some_iff.mp ((h.mem_order i).mp hi)).1

theorem findSome?_congr {α β : Type} {f g : α → Option β} {xs : List α} (h : ∀ x ∈ xs, f x = g x) :
    xs.findSome? f = xs.findSome? g := by
  induction xs with
  | nil => rfl
  | cons x xs ih =>
    obtain ⟨hhead, htail⟩ := List.forall_mem_cons.mp h
    rw [List.findSome?_cons, List.findSome?_cons, hhead, ih htail]

/-- What was collected does not change with the children. -/
theorem Collects.of_later (h : Collects s) (hlater : s.scope.Later s'.scope)
    (hcancelled : s.scope.cancelled = true → s'.scope.cancelled = true)
    (hjoin : s'.join = { s.join with phase := s'.join.phase, abandoned := s'.join.abandoned }) : Collects s' := by
  obtain ⟨scope', join'⟩ := s'
  obtain ⟨mode, snapshot, results, collected, remaining, firstError, abandoned, phase, order⟩ := join'
  cases hjoin
  refine ⟨h.resultsLength, h.collectedLength, h.once, h.mem_order, h.remaining, ?_, ?_, ?_, ?_⟩
  · intro i id hid hi
    exact ((hlater id).settled (h.settled i id hid hi)).1
  · intro i id hid hi
    rw [(hlater id).value (h.settled i id hid hi)]
    exact h.results i id hid hi
  · rw [h.firstError]
    refine findSome?_congr fun i hi => ?_
    obtain ⟨id, hid⟩ : ∃ id, s.join.snapshot[i]? = some id := ⟨_, List.getElem?_eq_getElem (h.lt_length hi)⟩
    show s.errorAt i = s.join.snapshot[i]?.bind fun id => (scope'.tasks id).error
    rw [errorAt, hid, Option.bind_some, Option.bind_some, ((hlater id).settled (h.settled i id hid hi)).2]
  · exact fun hsome => hcancelled (h.cancelled hsome)

theorem collect_tasks (s : Joining V E) (i : Nat) (child : Child V E) :
    (s.collect i child).scope.tasks = s.scope.tasks := by
  unfold Joining.collect
  dsimp only
  split <;> rfl

/-- A settled child is collected. -/
theorem Collects.collect (h : Collects s) {i id : Nat} (hid : s.join.snapshot[i]? = some id)
    (hnew : s.join.collected[i]? ≠ some true) (hsettled : (s.scope.tasks id).settled = true) :
    Collects (s.collect i (s.scope.tasks id)) := by
  have hlt : i < s.join.snapshot.length := (List.getElem?_eq_some_iff.mp hid).1
  have hnotMem : i ∉ s.join.order := fun hmem => hnew ((h.mem_order i).mp hmem)
  have htasks := collect_tasks s i (s.scope.tasks id)
  have herrors : (s.collect i (s.scope.tasks id)).errorAt = s.errorAt := by
    funext j
    simp only [errorAt, htasks]
    rfl
  have hcases {j : Nat} (hj : j ∈ s.join.order ++ [i]) : j ∈ s.join.order ∧ i ≠ j ∨ j = i := by
    rcases List.mem_append.mp hj with hj | hj
    · exact .inl ⟨hj, fun heq => hnotMem (heq ▸ hj)⟩
    · exact .inr (List.mem_singleton.mp hj)
  refine ⟨?_, ?_, ?_, ?_, ?_, ?_, ?_, ?_, ?_⟩
  · simpa [Joining.collect] using h.resultsLength
  · simpa [Joining.collect] using h.collectedLength
  · refine List.nodup_append.mpr ⟨h.once, by simp, fun a ha b hb => ?_⟩
    rintro rfl
    exact hnotMem (List.mem_singleton.mp hb ▸ ha)
  · intro j
    show j ∈ s.join.order ++ [i] ↔ (s.join.collected.set i true)[j]? = some true
    rw [List.getElem?_set, h.collectedLength, if_pos hlt]
    by_cases hij : i = j
    · simp [hij]
    · rw [if_neg hij, ← h.mem_order j]
      simp [Ne.symm hij]
  · -- there was something left to collect
    have hpigeon : s.join.order.length < s.join.snapshot.length := by
      have hsub : (i :: s.join.order) ⊆ List.range s.join.snapshot.length := by
        intro j hj
        rcases List.mem_cons.mp hj with rfl | hj
        · exact List.mem_range.mpr hlt
        · exact List.mem_range.mpr (h.lt_length hj)
      have hle := (List.nodup_cons.mpr ⟨hnotMem, h.once⟩).subperm hsub |>.length_le
      rw [List.length_cons, List.length_range] at hle
      exact hle
    have hremaining := h.remaining
    show s.join.remaining - 1 + (s.join.order ++ [i]).length = s.join.snapshot.length
    rw [List.length_append, List.length_singleton]
    omega
  · intro j id' hid' hj
    rw [htasks]
    rcases hcases hj with ⟨hj, -⟩ | rfl
    · exact h.settled j id' hid' hj
    · cases hid.symm.trans hid'
      exact hsettled
  · intro j id' hid' hj
    rw [htasks]
    show (s.join.results.set i (s.scope.tasks id).value)[j]? = _
    rw [List.getElem?_set, h.resultsLength, if_pos hlt]
    rcases hcases hj with ⟨hj, hij⟩ | rfl
    · rw [if_neg hij]
      exact h.results j id' hid' hj
    · cases hid.symm.trans hid'
      rw [if_pos rfl]
  · rw [herrors]
    show (s.join.firstError <|> (s.scope.tasks id).error) = (s.join.order ++ [i]).findSome? s.errorAt
    rw [List.findSome?_append, ← h.firstError, List.findSome?_singleton, errorAt, hid, Option.or_eq_orElse]
    rfl
  · intro hsome
    show (if (s.scope.tasks id).error.isSome ∧ s.join.firstError = none then s.scope.cancelAll else s.scope).cancelled =
      true
    split
    · rfl
    next hnot =>
      refine h.cancelled ?_
      cases hfirst : s.join.firstError with
      | some e => rfl
      | none =>
        have hsome' : (s.join.firstError <|> (s.scope.tasks id).error).isSome := hsome
        rw [hfirst] at hsome' hnot
        exact absurd ⟨hsome', rfl⟩ hnot

/-! ## Steps and runs -/

theorem Collects.goTo (h : Collects s) (phase : JoinPhase V E) : Collects (s.goTo phase) :=
  h.of_later (fun _ => .refl _) id rfl

/-- No step forgets or repeats a child. -/
theorem Collects.step (h : Collects s) (stalled : Bool) : Collects (s.step stalled) := by
  unfold Joining.step
  split
  · split
    · exact h.goTo _
    · split
      · exact h.goTo _
      · exact h.of_later (fun _ => .refl _) id rfl
  · split
    · exact h.goTo _
    · split
      next hunstarted => exact h.of_later (TaskScope.later_abandon hunstarted.2) id rfl
      · exact h.goTo _
  · split
    · exact h.goTo _
    · exact h.of_later TaskScope.later_handler id rfl
  · split
    · split
      · exact h.goTo _
      · exact h.goTo _
    next id hid =>
      split
      · exact h.goTo _
      next hnew =>
        split
        · exact h.goTo _
        next hsettled => exact h.collect hid hnew (by simpa using hsettled)
  · split
    · exact h.of_later (fun _ => .refl _) id rfl
    · exact h.goTo _
  · exact h

/-- What a join has come to: in a teardown it polls only after it has abandoned, and it ends with
    nothing left to collect or with its children handed back. -/
structure Phased (s : Joining V E) : Prop where
  abandoned : s.join.mode = .teardown → s.join.abandoned = true ∨ s.join.phase = .head ∨ ∃ o, s.join.phase = .ended o
  ended : ∀ o, s.join.phase = .ended o →
    o = s.finish ∧ s.join.remaining = 0 ∨
      o = .threw .nestedBlocking ∧ s.join.mode = .normal ∧ s.scope.children = s.join.snapshot

theorem phased_joinAll (mode : JoinMode) (scope : TaskScope V E) : Phased (joinAll mode scope) where
  abandoned _ := .inr (.inl rfl)
  ended o h := by cases h

omit [Inhabited V] in
/-- Going on somewhere in the loop. -/
theorem Phased.of_open (habandoned : s'.join.mode = .teardown → s'.join.abandoned = true)
    (hopen : ∀ o, s'.join.phase ≠ .ended o) : Phased s' where
  abandoned hmode := .inl (habandoned hmode)
  ended o ho := absurd ho (hopen o)

omit [Inhabited V] in
theorem Phased.in_loop (h : Phased s) (hhead : s.join.phase ≠ .head) (hended : ∀ o, s.join.phase ≠ .ended o) :
    s.join.mode = .teardown → s.join.abandoned = true := by
  intro hmode
  rcases h.abandoned hmode with habandoned | hphase | ⟨o, hphase⟩
  · exact habandoned
  · exact absurd hphase hhead
  · exact absurd hphase (hended o)

theorem Phased.step (h : Phased s) (stalled : Bool) : Phased (s.step stalled) := by
  unfold Joining.step
  split
  next hphase =>
    split
    next hzero =>
      refine ⟨fun _ => .inr (.inr ⟨_, rfl⟩), fun o ho => ?_⟩
      cases ho
      exact .inl ⟨rfl, hzero⟩
    · split
      next hgo =>
        refine .of_open (fun hmode => ?_) nofun
        rcases hgo with habandoned | ⟨hnormal, -⟩
        · exact habandoned
        · exact absurd hmode hnormal
      · exact .of_open (fun _ => rfl) nofun
  next i hphase =>
    have habandoned := h.in_loop (hphase ▸ nofun) (hphase ▸ nofun)
    split
    · exact .of_open habandoned nofun
    · split
      · exact .of_open habandoned nofun
      · exact .of_open habandoned nofun
  next i hphase =>
    have habandoned := h.in_loop (hphase ▸ nofun) (hphase ▸ nofun)
    split
    · exact .of_open habandoned nofun
    · exact .of_open habandoned nofun
  next i progressed hphase =>
    have habandoned := h.in_loop (hphase ▸ nofun) (hphase ▸ nofun)
    split
    · split
      · exact .of_open habandoned nofun
      · exact .of_open habandoned nofun
    · split
      · exact .of_open habandoned nofun
      · split
        · exact .of_open habandoned nofun
        · exact .of_open habandoned nofun
  next hphase =>
    have habandoned := h.in_loop (hphase ▸ nofun) (hphase ▸ nofun)
    split
    next hstalled =>
      refine ⟨fun _ => .inr (.inr ⟨_, rfl⟩), fun o ho => ?_⟩
      cases ho
      refine .inr ⟨rfl, ?_, rfl⟩
      show s.join.mode = .normal
      cases hmode : s.join.mode with
      | normal => rfl
      | teardown => exact absurd (habandoned hmode) (by simp [hstalled.1])
    · exact .of_open habandoned nofun
  · exact h

/-- A join keeps its mode and its children. -/
theorem step_frame (s : Joining V E) (stalled : Bool) :
    (s.step stalled).join.snapshot = s.join.snapshot ∧ (s.step stalled).join.mode = s.join.mode := by
  unfold Joining.step
  repeat' split
  all_goals exact ⟨rfl, rfl⟩

/-- A join of some children, in some mode, at any time. -/
structure Sound (mode : JoinMode) (children : List Nat) (s : Joining V E) : Prop where
  collects : Collects s
  phased : Phased s
  snapshot : s.join.snapshot = children
  mode : s.join.mode = mode

variable {mode : JoinMode} {children : List Nat} {scope : TaskScope V E}

theorem Sound.act (h : Sound mode children s) (a : Action V E) : Sound mode children (s.act a) := by
  cases a with
  | step stalled =>
    obtain ⟨hsnapshot, hmode⟩ := step_frame s stalled
    exact ⟨h.collects.step stalled, h.phased.step stalled, hsnapshot.trans h.snapshot, hmode.trans h.mode⟩
  | event e =>
    have hcancelled : s.scope.cancelled = true → (s.scope.apply e).cancelled = true := by
      cases e <;> exact id
    have hchildren : (s.scope.apply e).children = s.scope.children := by
      cases e <;> rfl
    refine ⟨h.collects.of_later (s.scope.later_apply e) hcancelled rfl, ⟨h.phased.abandoned, ?_⟩, h.snapshot, h.mode⟩
    intro o ho
    rcases h.phased.ended o ho with hfinish | ⟨hstalled, hmode, hback⟩
    · exact .inl hfinish
    · exact .inr ⟨hstalled, hmode, hchildren.trans hback⟩

theorem Sound.run (h : Sound mode children s) (actions : List (Action V E)) : Sound mode children (s.run actions) := by
  induction actions generalizing s with
  | nil => exact h
  | cons a actions ih => exact ih (h.act a)

theorem sound_joinAll (mode : JoinMode) (scope : TaskScope V E) (actions : List (Action V E)) :
    Sound mode scope.children ((joinAll mode scope).run actions) :=
  Sound.run ⟨collects_joinAll mode scope, phased_joinAll mode scope, rfl, rfl⟩ actions

/-! ## How a join ends -/

/-- Every child was collected once, after it had settled. Without a failed child the outcome is
    their values, where a cancelled one has none; otherwise it is the error that was met first,
    with the scope cancelled. -/
structure Joined (children : List Nat) (s : Joining V E) (outcome : JoinOutcome V E) : Prop where
  once : s.join.order.Perm (List.range children.length)
  settled : ∀ id ∈ children, (s.scope.tasks id).settled = true
  returned_iff : (∃ results, outcome = .returned results) ↔ ∀ id ∈ children, (s.scope.tasks id).error = none
  results : ∀ results, outcome = .returned results → results = children.map fun id => (s.scope.tasks id).value
  threw : ∀ e, outcome = .threw e →
    s.scope.cancelled = true ∧ ∃ e', e = .child e' ∧ s.join.order.findSome? s.errorAt = some e'

/-- With nothing left to collect, every child has been collected. -/
theorem Collects.perm (h : Collects s) (hzero : s.join.remaining = 0) :
    s.join.order.Perm (List.range s.join.snapshot.length) := by
  have hsub : s.join.order ⊆ List.range s.join.snapshot.length := fun i hi => List.mem_range.mpr (h.lt_length hi)
  have hremaining := h.remaining
  refine (h.once.subperm hsub).perm_of_length_le ?_
  rw [List.length_range]
  omega

/-- A join that ended without giving up. -/
theorem Sound.joined (h : Sound mode children s) {outcome : JoinOutcome V E}
    (hended : s.join.phase = .ended outcome) (hresolved : outcome ≠ .threw .nestedBlocking) :
    Joined children s outcome := by
  obtain ⟨hcollects, hphased, rfl, -⟩ := h
  obtain ⟨rfl, hzero⟩ : outcome = s.finish ∧ s.join.remaining = 0 := by
    rcases hphased.ended outcome hended with hfinish | ⟨hstalled, -⟩
    · exact hfinish
    · exact absurd hstalled hresolved
  have hperm := hcollects.perm hzero
  have hmem {i id : Nat} (hid : s.join.snapshot[i]? = some id) : i ∈ s.join.order :=
    hperm.mem_iff.mpr (List.mem_range.mpr (List.getElem?_eq_some_iff.mp hid).1)
  have hnone : s.join.firstError = none ↔ ∀ id ∈ s.join.snapshot, (s.scope.tasks id).error = none := by
    rw [hcollects.firstError, List.findSome?_eq_none_iff]
    constructor
    · intro hall id hid
      obtain ⟨i, hi⟩ := List.mem_iff_getElem?.mp hid
      have herror := hall i (hmem hi)
      rwa [errorAt, hi] at herror
    · intro hall i hi
      have hid : s.join.snapshot[i]? = some _ := List.getElem?_eq_getElem (hcollects.lt_length hi)
      rw [errorAt, hid]
      exact hall _ (List.mem_of_getElem? hid)
  refine ⟨hperm, fun id hid => ?_, ?_, fun results hresults => ?_, fun e he => ?_⟩
  · obtain ⟨i, hi⟩ := List.mem_iff_getElem?.mp hid
    exact hcollects.settled i id hi (hmem hi)
  · rw [← hnone, finish]
    cases s.join.firstError <;> simp
  · have hresults' : s.join.results = results := by
      unfold finish at hresults
      split at hresults
      · cases hresults
      · cases hresults
        rfl
    rw [← hresults']
    refine List.ext_getElem? fun i => ?_
    rw [List.getElem?_map]
    cases hid : s.join.snapshot[i]? with
    | some id => exact hcollects.results i id hid (hmem hid)
    | none =>
      rw [List.getElem?_eq_none_iff] at hid
      exact List.getElem?_eq_none (hcollects.resultsLength ▸ hid)
  · unfold finish at he
    split at he
    next e' hfirst =>
      cases he
      exact ⟨hcollects.cancelled (by rw [hfirst]; rfl), e', rfl, hcollects.firstError ▸ hfirst⟩
    · cases he

/-! ## Who is cancelled -/

/-- No task is cancelled, and the scope is only for an error. -/
structure SameTokens (s s' : Joining V E) : Prop where
  tasks : ∀ id, (s'.scope.tasks id).cancelled = (s.scope.tasks id).cancelled
  outer : s'.scope.outerCancelled = s.scope.outerCancelled
  scope : s'.scope.cancelled = s.scope.cancelled ∨ s'.join.firstError.isSome
  firstError : s.join.firstError.isSome → s'.join.firstError.isSome

omit [Inhabited V]

theorem SameTokens.of_scope (hscope : ∀ id, (s'.scope.tasks id).cancelled = (s.scope.tasks id).cancelled)
    (houter : s'.scope.outerCancelled = s.scope.outerCancelled) (hcancelled : s'.scope.cancelled = s.scope.cancelled)
    (hfirst : s'.join.firstError = s.join.firstError) : SameTokens s s' :=
  ⟨hscope, houter, .inl hcancelled, fun h => hfirst ▸ h⟩

theorem SameTokens.goTo {phase : JoinPhase V E} : SameTokens s (s.goTo phase) :=
  .of_scope (fun _ => rfl) rfl rfl rfl

theorem cancelled_update {scope : TaskScope V E} {id : Nat} {f : Child V E → Child V E}
    (hf : (f (scope.tasks id)).cancelled = (scope.tasks id).cancelled) (id' : Nat) :
    ((scope.update id f).tasks id').cancelled = (scope.tasks id').cancelled := by
  by_cases hid : id' = id
  · subst hid
    simpa [TaskScope.update] using hf
  · simp [TaskScope.update, hid]

theorem SameTokens.of_update {id : Nat} (f : Child V E → Child V E) (hscope : s'.scope = s.scope.update id f)
    (hf : ∀ c, (f c).cancelled = c.cancelled) (hfirst : s'.join.firstError = s.join.firstError) : SameTokens s s' := by
  refine .of_scope (fun id' => ?_) (by rw [hscope]; rfl) (by rw [hscope]; rfl) hfirst
  rw [hscope]
  exact cancelled_update (hf _) id'

/-- Only the cancellation of a task sets its flag. -/
theorem isTaskCancelled_apply {scope : TaskScope V E} {e : ScopeEvent V E} {id : Nat} (hcancel : e ≠ .cancel id)
    (houter : e ≠ .cancelOuter) : (scope.apply e).isTaskCancelled id = scope.isTaskCancelled id := by
  cases e with
  | claimStart id' =>
    have hsame : (scope.tasks id').claimStart.cancelled = (scope.tasks id').cancelled := by
      unfold Child.claimStart
      split <;> rfl
    show (((scope.update id' Child.claimStart).tasks id).cancelled || scope.isCancelled) = _
    rw [cancelled_update hsame, TaskScope.isTaskCancelled]
  | resolve id' r =>
    have hsame : ((scope.tasks id').resolve r).cancelled = (scope.tasks id').cancelled := by
      unfold Child.resolve
      split <;> rfl
    show (((scope.update id' (Child.resolve r)).tasks id).cancelled || scope.isCancelled) = _
    rw [cancelled_update hsame, TaskScope.isTaskCancelled]
  | cancel id' =>
    have hid : id ≠ id' := fun heq => hcancel (heq ▸ rfl)
    show (((scope.update id' Child.cancel).tasks id).cancelled || scope.isCancelled) = _
    simp [TaskScope.update, hid, TaskScope.isTaskCancelled]
  | cancelOuter => exact absurd rfl houter

variable [Inhabited V]

theorem sameTokens_collect (s : Joining V E) (i : Nat) (child : Child V E) : SameTokens s (s.collect i child) := by
  refine ⟨fun id => by rw [collect_tasks], ?_, ?_, ?_⟩
  all_goals unfold Joining.collect
  · dsimp only
    split <;> rfl
  · dsimp only
    split
    next h =>
      right
      rw [h.2]
      exact h.1
    · exact .inl rfl
  · intro hsome
    obtain ⟨e, he⟩ := Option.isSome_iff_exists.mp hsome
    simp [he]

/-- A step of a join cancels no task. -/
theorem sameTokens_step (s : Joining V E) (stalled : Bool) : SameTokens s (s.step stalled) := by
  unfold Joining.step
  split
  · split
    · exact .goTo
    · split
      · exact .goTo
      · exact .of_scope (fun _ => rfl) rfl rfl rfl
  · split
    · exact .goTo
    · split
      · exact .of_update Child.abandon rfl (fun _ => rfl) rfl
      · exact .goTo
  · split
    · exact .goTo
    · exact .of_update Child.runHandler rfl (fun _ => rfl) rfl
  · split
    · split
      · exact .goTo
      · exact .goTo
    · split
      · exact .goTo
      · split
        · exact .goTo
        · exact sameTokens_collect s _ _
  · split
    · exact .of_scope (fun _ => rfl) rfl rfl rfl
    · exact .goTo
  · exact .of_scope (fun _ => rfl) rfl rfl rfl

/-- Cancelling a child is all that sets its own flag, and an error all that sets the scope's. -/
theorem isTaskCancelled_run (s : Joining V E) (actions : List (Action V E)) (id : Nat)
    (h : (s.run actions).scope.isTaskCancelled id = true) :
    s.scope.isTaskCancelled id = true ∨ .event (.cancel id) ∈ actions ∨ .event .cancelOuter ∈ actions ∨
      (s.run actions).join.firstError.isSome := by
  have hkept (s : Joining V E) (actions : List (Action V E)) (hsome : s.join.firstError.isSome) :
      (s.run actions).join.firstError.isSome := by
    induction actions generalizing s with
    | nil => exact hsome
    | cons a actions ih =>
      refine ih (s.act a) ?_
      cases a with
      | step stalled => exact (sameTokens_step s stalled).firstError hsome
      | event e => exact hsome
  induction actions generalizing s with
  | nil => exact .inl h
  | cons a actions ih =>
    rcases ih (s.act a) h with hnow | hcancel | houter | herror
    · cases a with
      | step stalled =>
        have htokens := sameTokens_step s stalled
        rcases htokens.scope with hsame | hsome
        · left
          rw [TaskScope.isTaskCancelled, TaskScope.isCancelled] at hnow ⊢
          rw [← htokens.tasks id, ← htokens.outer, ← hsame]
          exact hnow
        · exact .inr (.inr (.inr (hkept _ actions hsome)))
      | event e =>
        by_cases hcancel : e = .cancel id
        · exact .inr (.inl (hcancel ▸ List.mem_cons_self))
        by_cases houter : e = .cancelOuter
        · exact .inr (.inr (.inl (houter ▸ List.mem_cons_self)))
        left
        rwa [← isTaskCancelled_apply hcancel houter]
    · exact .inr (.inl (List.mem_cons_of_mem _ hcancel))
    · exact .inr (.inr (.inl (List.mem_cons_of_mem _ houter)))
    · exact .inr (.inr (.inr herror))

end Joining

end Luma.Concurrency
