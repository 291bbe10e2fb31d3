-- SUMMARY: A teardown join ends once the children that were started have ended, and the whole join.
import Luma.Concurrency.ScopeJoin

/-! # Teardowns

A teardown resolves the children that no worker has started, and so waits for nothing but the
started ones. After a join that gave up waiting, the teardown still joins every child. -/

namespace Luma.Concurrency

namespace Joining

variable {V E : Type} [Inhabited V] {s s' : Joining V E} {mode : JoinMode} {children : List Nat}
  {scope : TaskScope V E}

/-! ## Abandoned children -/

/-- Whoever has abandoned a child has resolved it. -/
def HandlersDone (scope : TaskScope V E) : Prop :=
  ∀ id, (scope.tasks id).claim = some .abandoner → (scope.tasks id).settled = true

/-- Whoever has abandoned a child has resolved it, or the join is about to. -/
def Handled (s : Joining V E) : Prop :=
  ∀ id, (s.scope.tasks id).claim = some .abandoner →
    (s.scope.tasks id).settled = true ∨ ∃ i, s.join.phase = .runHandler i ∧ s.join.snapshot[i]? = some id

omit [Inhabited V] in
theorem Handled.of_done (h : HandlersDone s.scope) : Handled s := fun id hid => .inl (h id hid)

omit [Inhabited V] in
theorem Handled.done (h : Handled s) (hphase : ∀ i, s.join.phase ≠ .runHandler i) : HandlersDone s.scope := by
  intro id hid
  rcases h id hid with hsettled | ⟨i, hi, -⟩
  · exact hsettled
  · exact absurd hi (hphase i)

omit [Inhabited V] in
theorem tasks_update_of_ne {id id' : Nat} {f : Child V E → Child V E} (h : id' ≠ id) :
    (scope.update id f).tasks id' = scope.tasks id' := by
  simp [TaskScope.update, h]

omit [Inhabited V] in
theorem tasks_update_self {id : Nat} {f : Child V E → Child V E} :
    (scope.update id f).tasks id = f (scope.tasks id) := by
  simp [TaskScope.update]

theorem Handled.step (h : Handled s) (stalled : Bool) : Handled (s.step stalled) := by
  unfold Joining.step
  split
  next hphase =>
    have hdone := h.done (by simp [hphase])
    repeat' split
    all_goals exact .of_done hdone
  next i hphase =>
    have hdone := h.done (by simp [hphase])
    split
    · exact .of_done hdone
    next id hid =>
      split
      · -- the handler of this child is next
        intro id' hid'
        by_cases heq : id' = id
        · exact .inr ⟨i, rfl, heq ▸ hid⟩
        · left
          rw [tasks_update_of_ne heq] at hid' ⊢
          exact hdone id' hid'
      · exact .of_done hdone
  next i hphase =>
    split
    next hnone =>
      refine .of_done fun id hid => ?_
      rcases h id hid with hsettled | ⟨j, hj, hget⟩
      · exact hsettled
      · cases hphase.symm.trans hj
        cases hnone.symm.trans hget
    next id hget =>
      refine .of_done fun id' hid' => ?_
      by_cases heq : id' = id
      · subst heq
        rw [tasks_update_self, Child.settled, Child.runHandler]
        cases (s.scope.tasks id').resolution <;> simp
      · rw [tasks_update_of_ne heq] at hid' ⊢
        rcases h id' hid' with hsettled | ⟨j, hj, hget'⟩
        · exact hsettled
        · cases hphase.symm.trans hj
          exact absurd (Option.some.inj (hget'.symm.trans hget)) heq
  next i progressed hphase =>
    have hdone := h.done (by simp [hphase])
    split
    · split
      · exact .of_done hdone
      · exact .of_done hdone
    · split
      · exact .of_done hdone
      · split
        · exact .of_done hdone
        · refine .of_done ?_
          unfold HandlersDone
          rw [collect_tasks]
          exact hdone
  next hphase =>
    have hdone := h.done (by simp [hphase])
    split
    · exact .of_done hdone
    · exact .of_done hdone
  · exact h

/-- Has the abandonment got past a position? -/
def Passed : JoinPhase V E → Nat → Prop
  | .abandon j, i => i < j
  | .runHandler j, i => i ≤ j
  | _, _ => True

/-- A join that has abandoned has left no child unstarted, as far as it has got. -/
def Started (s : Joining V E) : Prop :=
  s.join.abandoned = true → ∀ i id, s.join.snapshot[i]? = some id → Passed s.join.phase i →
    i ∈ s.join.order ∨ (s.scope.tasks id).claim ≠ some .unstarted

omit [Inhabited V] in
/-- The children go on, and the join has got as far as before. -/
theorem Started.of_same (h : Started s) (hlater : s.scope.Later s'.scope)
    (habandoned : s'.join.abandoned = s.join.abandoned) (hsnapshot : s'.join.snapshot = s.join.snapshot)
    (horder : ∀ i ∈ s.join.order, i ∈ s'.join.order)
    (hpassed : ∀ i, i < s.join.snapshot.length → Passed s'.join.phase i → Passed s.join.phase i) : Started s' := by
  intro habandoned' i id hid hpassed'
  rw [hsnapshot] at hid
  have hlt := (List.getElem?_eq_some_iff.mp hid).1
  rcases h (habandoned ▸ habandoned') i id hid (hpassed i hlt hpassed') with hmem | hclaim
  · exact .inl (horder i hmem)
  · exact .inr ((hlater id).claim hclaim ▸ hclaim)

omit [Inhabited V] in
theorem Started.goTo (h : Started s) {phase : JoinPhase V E}
    (hpassed : ∀ i, i < s.join.snapshot.length → Passed phase i → Passed s.join.phase i) : Started (s.goTo phase) :=
  h.of_same (fun _ => .refl _) rfl rfl (fun _ hi => hi) hpassed

theorem Started.step (h : Started s) (hcollects : Collects s) (stalled : Bool) : Started (s.step stalled) := by
  unfold Joining.step
  split
  next hphase =>
    have hpassed (phase : JoinPhase V E) : ∀ i, i < s.join.snapshot.length → Passed phase i → Passed s.join.phase i :=
      fun _ _ _ => hphase ▸ trivial
    split
    · exact h.goTo (hpassed _)
    · split
      · exact h.goTo (hpassed _)
      · intro _ i id _ hi
        exact absurd hi (Nat.not_lt_zero i)
  next j hphase =>
    split
    next hnone =>
      refine h.goTo fun i hi _ => ?_
      rw [hphase]
      exact Nat.lt_of_lt_of_le hi (List.getElem?_eq_none_iff.mp hnone)
    next id hid =>
      split
      next hunstarted =>
        intro habandoned i id' hid' hi
        rcases Nat.lt_or_eq_of_le hi with hlt | rfl
        · rcases h habandoned i id' hid' (hphase ▸ hlt) with hmem | hclaim
          · exact .inl hmem
          · exact .inr ((TaskScope.later_abandon hunstarted.2 id').claim hclaim ▸ hclaim)
        · cases hid.symm.trans hid'
          right
          show ((s.scope.update id Child.abandon).tasks id).claim ≠ _
          rw [tasks_update_self]
          nofun
      next hnot =>
        intro habandoned i id' hid' hi
        rcases Nat.lt_or_eq_of_le (Nat.le_of_lt_succ hi) with hlt | rfl
        · exact h habandoned i id' hid' (hphase ▸ hlt)
        · cases hid.symm.trans hid'
          by_cases hclaim : (s.scope.tasks id).claim = some .unstarted
          · left
            refine (hcollects.mem_order i).mpr ?_
            have hlt : i < s.join.collected.length :=
              hcollects.collectedLength ▸ (List.getElem?_eq_some_iff.mp hid).1
            rw [List.getElem?_eq_getElem hlt] at hnot ⊢
            cases hget : s.join.collected[i] with
            | true => rfl
            | false => exact absurd ⟨by rw [hget], hclaim⟩ hnot
          · exact .inr hclaim
  next j hphase =>
    have hpassed : ∀ i, i < s.join.snapshot.length → Passed (.abandon (j + 1) : JoinPhase V E) i → Passed s.join.phase i :=
      fun i _ hi => hphase ▸ Nat.le_of_lt_succ hi
    split
    · exact h.goTo hpassed
    · exact h.of_same TaskScope.later_handler rfl rfl (fun _ hi => hi) hpassed
  next i progressed hphase =>
    have hpassed (phase : JoinPhase V E) : ∀ i, i < s.join.snapshot.length → Passed phase i → Passed s.join.phase i :=
      fun _ _ _ => hphase ▸ trivial
    split
    · split
      · exact h.goTo (hpassed _)
      · exact h.goTo (hpassed _)
    · split
      · exact h.goTo (hpassed _)
      · split
        · exact h.goTo (hpassed _)
        · refine h.of_same (fun id => ?_) rfl rfl (fun _ hi => List.mem_append_left _ hi) (hpassed _)
          rw [collect_tasks]
          exact .refl _
  next hphase =>
    have hpassed (phase : JoinPhase V E) : ∀ i, i < s.join.snapshot.length → Passed phase i → Passed s.join.phase i :=
      fun _ _ _ => hphase ▸ trivial
    split
    · exact h.of_same (fun _ => .refl _) rfl rfl (fun _ hi => hi) (hpassed _)
    · exact h.goTo (hpassed _)
  · exact h

/-- A join in teardown, with whoever has started a child done with it. -/
structure Closing (children : List Nat) (s : Joining V E) : Prop where
  sound : Sound .teardown children s
  handled : Handled s
  started : Started s
  quiet : ∀ id ∈ children, (s.scope.tasks id).settled = true ∨ (s.scope.tasks id).claim = some .unstarted ∨
    (s.scope.tasks id).claim = some .abandoner

/-- Some more steps of the join alone end it. -/
def Ends (s : Joining V E) : Prop := ∃ k outcome, (s.run (List.replicate k (.step false))).join.phase = .ended outcome

theorem Ends.of_step (h : Ends (s.step false)) : Ends s := by
  obtain ⟨k, outcome, hk⟩ := h
  exact ⟨k + 1, outcome, hk⟩

/-- A step of the join abandons a child, resolves one, or leaves them as they are. -/
theorem step_task (s : Joining V E) (stalled : Bool) (id : Nat) :
    (s.step stalled).scope.tasks id = s.scope.tasks id ∨
      ((s.step stalled).scope.tasks id).claim = some .abandoner ∨ ((s.step stalled).scope.tasks id).settled = true := by
  unfold Joining.step
  split
  · repeat' split
    all_goals exact .inl rfl
  · split
    · exact .inl rfl
    next id' hid' =>
      split
      · by_cases heq : id = id'
        · subst heq
          right
          left
          show ((s.scope.update id Child.abandon).tasks id).claim = _
          rw [tasks_update_self, Child.abandon]
        · exact .inl (tasks_update_of_ne heq)
      · exact .inl rfl
  · split
    · exact .inl rfl
    next id' hid' =>
      by_cases heq : id = id'
      · subst heq
        right
        right
        show ((s.scope.update id Child.runHandler).tasks id).settled = _
        rw [tasks_update_self, Child.settled, Child.runHandler]
        cases (s.scope.tasks id).resolution <;> simp
      · exact .inl (tasks_update_of_ne heq)
  · split
    · split
      · exact .inl rfl
      · exact .inl rfl
    · split
      · exact .inl rfl
      · split
        · exact .inl rfl
        · exact .inl (by rw [collect_tasks])
  · split
    · exact .inl rfl
    · exact .inl rfl
  · exact .inl rfl

/-- The steps of a join leave its children settled, unstarted or abandoned. -/
theorem Closing.step (h : Closing children s) : Closing children (s.step false) where
  sound := h.sound.act (.step false)
  handled := h.handled.step false
  started := h.started.step h.sound.collects false
  quiet id hid := by
    rcases step_task s false id with hsame | hclaim | hsettled
    · rw [hsame]
      exact h.quiet id hid
    · exact .inr (.inr hclaim)
    · exact .inl hsettled

/-- Past the abandonment, every child that is left has settled. -/
theorem Closing.settled (h : Closing children s) (habandoned : s.join.abandoned = true)
    (hpassed : ∀ i, Passed s.join.phase i) (hphase : ∀ i, s.join.phase ≠ .runHandler i) {i id : Nat}
    (hid : s.join.snapshot[i]? = some id) : (s.scope.tasks id).settled = true := by
  rcases h.started habandoned i id hid (hpassed i) with hmem | hclaim
  · exact h.sound.collects.settled i id hid hmem
  · rcases h.quiet id (h.sound.snapshot ▸ List.mem_of_getElem? hid) with hsettled | hunstarted | habandoner
    · exact hsettled
    · exact absurd hunstarted hclaim
    · exact h.handled.done hphase id habandoner

/-! ## A teardown ends -/

/-- With nothing left to collect the join ends. -/
theorem ends_of_head (hphase : s.join.phase = .head) (hzero : s.join.remaining = 0) : Ends s := by
  refine ⟨1, s.finish, ?_⟩
  show (s.step false).join.phase = _
  simp [Joining.step, hphase, hzero, Joining.goTo]

/-- The loop goes past the last child. -/
theorem step_poll_last {i : Nat} {progressed : Bool} (hphase : s.join.phase = .poll i progressed)
    (hlast : s.join.snapshot.length ≤ i) (stalled : Bool) :
    s.step stalled = if s.join.remaining > 0 ∧ progressed = false then s.goTo .wait else s.goTo .head := by
  simp only [Joining.step, hphase, List.getElem?_eq_none hlast]

/-- The loop leaves a child alone, or collects it. -/
theorem step_poll {i id : Nat} {progressed : Bool} (hphase : s.join.phase = .poll i progressed)
    (hid : s.join.snapshot[i]? = some id) (stalled : Bool) :
    s.step stalled = s.goTo (.poll (i + 1) progressed) ∧
        (s.join.collected[i]? = some true ∨ (s.scope.tasks id).settled = false) ∨
      s.step stalled = s.collect i (s.scope.tasks id) := by
  simp only [Joining.step, hphase, hid]
  split
  next hcollected => exact .inl ⟨rfl, .inl hcollected⟩
  · split
    next hsettled => exact .inl ⟨rfl, .inr hsettled⟩
    · exact .inr rfl

/-- All positions before one are collected, and all children have settled: the loop collects the
    rest. -/
theorem Closing.ends_of_pass (h : Closing children s) (habandoned : s.join.abandoned = true) {i : Nat}
    {progressed : Bool} (hphase : s.join.phase = .poll i progressed)
    (hbefore : ∀ j, j < i → j < s.join.snapshot.length → j ∈ s.join.order) : Ends s := by
  induction hn : s.join.snapshot.length - i generalizing s i progressed with
  | zero =>
    have hlast : s.join.snapshot.length ≤ i := Nat.sub_eq_zero_iff_le.mp hn
    have hzero : s.join.remaining = 0 := by
      have hsub : List.range s.join.snapshot.length ⊆ s.join.order := by
        intro j hj
        have hlt := List.mem_range.mp hj
        exact hbefore j (Nat.lt_of_lt_of_le hlt hlast) hlt
      have hle := (List.nodup_range.subperm hsub).length_le
      rw [List.length_range] at hle
      have hremaining := h.sound.collects.remaining
      omega
    refine .of_step ?_
    rw [step_poll_last hphase hlast, if_neg (by omega)]
    exact ends_of_head rfl hzero
  | succ n ih =>
    have hlt : i < s.join.snapshot.length := by omega
    have hid : s.join.snapshot[i]? = some s.join.snapshot[i] := List.getElem?_eq_getElem hlt
    have hsettled := h.settled habandoned (fun _ => hphase ▸ trivial) (hphase ▸ nofun) hid
    have hstep := h.step
    refine .of_step ?_
    rcases step_poll hphase hid false with ⟨hgo, hcollected | hpending⟩ | hcollect
    · rw [hgo] at hstep ⊢
      refine ih hstep habandoned rfl (fun j hj hjlt => ?_) (by show s.join.snapshot.length - (i + 1) = n; omega)
      rcases Nat.lt_or_eq_of_le (Nat.le_of_lt_succ hj) with hj | rfl
      · exact hbefore j hj hjlt
      · exact (h.sound.collects.mem_order j).mpr hcollected
    · exact absurd hsettled (by simp [hpending])
    · rw [hcollect] at hstep ⊢
      refine ih hstep habandoned rfl (fun j hj hjlt => ?_) (by show s.join.snapshot.length - (i + 1) = n; omega)
      rcases Nat.lt_or_eq_of_le (Nat.le_of_lt_succ hj) with hj | rfl
      · exact List.mem_append_left _ (hbefore j hj hjlt)
      · exact List.mem_append_right _ (List.mem_singleton_self j)

/-- At the loop's head, after the abandonment. -/
theorem Closing.ends_of_head (h : Closing children s) (habandoned : s.join.abandoned = true)
    (hphase : s.join.phase = .head) : Ends s := by
  by_cases hzero : s.join.remaining = 0
  · exact Joining.ends_of_head hphase hzero
  · have hstep := h.step
    have hgo : s.step false = s.goTo (.poll 0 false) := by
      simp [Joining.step, hphase, hzero, habandoned]
    refine .of_step ?_
    rw [hgo] at hstep ⊢
    exact hstep.ends_of_pass habandoned rfl fun j hj _ => absurd hj (Nat.not_lt_zero j)

theorem Closing.ends_of_wait (h : Closing children s) (habandoned : s.join.abandoned = true)
    (hphase : s.join.phase = .wait) : Ends s := by
  have hstep := h.step
  have hgo : s.step false = s.goTo .head := by simp [Joining.step, hphase]
  refine .of_step ?_
  rw [hgo] at hstep ⊢
  exact hstep.ends_of_head habandoned rfl

/-- In the middle of the loop, after the abandonment. -/
theorem Closing.ends_of_poll (h : Closing children s) (habandoned : s.join.abandoned = true) {i : Nat}
    {progressed : Bool} (hphase : s.join.phase = .poll i progressed) : Ends s := by
  induction hn : s.join.snapshot.length - i generalizing s i progressed with
  | zero =>
    have hstep := h.step
    have hlast := step_poll_last hphase (Nat.sub_eq_zero_iff_le.mp hn) false
    refine .of_step ?_
    split at hlast
    · rw [hlast] at hstep ⊢
      exact hstep.ends_of_wait habandoned rfl
    · rw [hlast] at hstep ⊢
      exact hstep.ends_of_head habandoned rfl
  | succ n ih =>
    have hid : s.join.snapshot[i]? = some s.join.snapshot[i] := List.getElem?_eq_getElem (by omega)
    have hstep := h.step
    refine .of_step ?_
    rcases step_poll hphase hid false with ⟨hgo, -⟩ | hcollect
    · rw [hgo] at hstep ⊢
      exact ih hstep habandoned rfl (by show s.join.snapshot.length - (i + 1) = n; omega)
    · rw [hcollect] at hstep ⊢
      exact ih hstep habandoned rfl (by show s.join.snapshot.length - (i + 1) = n; omega)

/-- After the handler of a child, the next one is abandoned. -/
theorem step_runHandler {i : Nat} (hphase : s.join.phase = .runHandler i) (stalled : Bool) :
    (s.step stalled).join = (s.goTo (.abandon (i + 1))).join := by
  simp only [Joining.step, hphase]
  split <;> rfl

/-- While it abandons. -/
theorem Closing.ends_of_abandon (h : Closing children s) (habandoned : s.join.abandoned = true) {i : Nat}
    (hphase : s.join.phase = .abandon i) : Ends s := by
  induction hn : s.join.snapshot.length - i generalizing s i with
  | zero =>
    have hgo : s.step false = s.goTo (.poll 0 false) := by
      simp only [Joining.step, hphase, List.getElem?_eq_none (Nat.sub_eq_zero_iff_le.mp hn)]
    have hstep := h.step
    refine .of_step ?_
    rw [hgo] at hstep ⊢
    exact hstep.ends_of_pass habandoned rfl fun j hj _ => absurd hj (Nat.not_lt_zero j)
  | succ n ih =>
    have hid : s.join.snapshot[i]? = some s.join.snapshot[i] := List.getElem?_eq_getElem (by omega)
    have hstep := h.step
    have hjoin : (s.step false).join = (s.goTo (.runHandler i)).join ∨ (s.step false).join = (s.goTo (.abandon (i + 1))).join := by
      simp only [Joining.step, hphase, hid]
      split
      · exact .inl rfl
      · exact .inr rfl
    refine .of_step ?_
    rcases hjoin with hhandler | hnext
    · -- the handler runs before the next child
      have hnext := step_runHandler (s := s.step false) (i := i) (by rw [hhandler]; rfl) false
      refine .of_step ?_
      refine ih hstep.step ?_ (by rw [hnext]; rfl) ?_
      · rw [hnext]
        show (s.step false).join.abandoned = true
        rw [hhandler]
        exact habandoned
      · rw [hnext]
        show (s.step false).join.snapshot.length - (i + 1) = n
        rw [hhandler]
        show s.join.snapshot.length - (i + 1) = n
        omega
    · refine ih hstep (by rw [hnext]; exact habandoned) (by rw [hnext]; rfl) ?_
      rw [hnext]
      show s.join.snapshot.length - (i + 1) = n
      omega

/-- A teardown whose started children have ended comes to its end. -/
theorem Closing.ends (h : Closing children s) : Ends s := by
  have habandoned := h.sound.phased.abandoned h.sound.mode
  have hstep := h.step
  cases hphase : s.join.phase with
  | head =>
    by_cases hdone : s.join.abandoned = true
    · exact h.ends_of_head hdone hphase
    · by_cases hzero : s.join.remaining = 0
      · exact Joining.ends_of_head hphase hzero
      · -- the abandonment starts
        have hgo : (s.step false).join = { s.join with abandoned := true, phase := .abandon 0 } := by
          simp [Joining.step, hphase, hzero, hdone, h.sound.mode]
        refine .of_step (hstep.ends_of_abandon ?_ (i := 0) ?_)
        · rw [hgo]
        · rw [hgo]
  | abandon i => exact h.ends_of_abandon (h.sound.phased.in_loop (hphase ▸ nofun) (hphase ▸ nofun) h.sound.mode) hphase
  | runHandler i =>
    have hnext := step_runHandler hphase false
    refine .of_step (hstep.ends_of_abandon ?_ (i := i + 1) ?_)
    · rw [hnext]
      exact h.sound.phased.in_loop (hphase ▸ nofun) (hphase ▸ nofun) h.sound.mode
    · rw [hnext]
      rfl
  | poll i progressed =>
    exact h.ends_of_poll (h.sound.phased.in_loop (hphase ▸ nofun) (hphase ▸ nofun) h.sound.mode) hphase
  | wait => exact h.ends_of_wait (h.sound.phased.in_loop (hphase ▸ nofun) (hphase ▸ nofun) h.sound.mode) hphase
  | ended outcome => exact ⟨0, outcome, hphase⟩

/-! ## Runs -/

omit [Inhabited V] in
/-- An event leaves an abandoned child to its abandoner. -/
theorem claim_apply {e : ScopeEvent V E} {id : Nat}
    (h : ((scope.apply e).tasks id).claim = some .abandoner) : (scope.tasks id).claim = some .abandoner := by
  have hupdate {id' : Nat} {f : Child V E → Child V E}
      (hf : ∀ c : Child V E, (f c).claim = some .abandoner → c.claim = some .abandoner)
      (h : ((scope.update id' f).tasks id).claim = some .abandoner) : (scope.tasks id).claim = some .abandoner := by
    by_cases heq : id = id'
    · subst heq
      rw [tasks_update_self] at h
      exact hf _ h
    · rwa [tasks_update_of_ne heq] at h
  cases e with
  | claimStart id' =>
    refine hupdate (fun c hc => ?_) h
    unfold Child.claimStart at hc
    split at hc
    · cases hc
    · exact hc
  | resolve id' r =>
    refine hupdate (fun c hc => ?_) h
    unfold Child.resolve at hc
    split at hc
    · exact hc
    · exact hc
  | cancel id' => exact hupdate (f := Child.cancel) (fun _ hc => hc) h
  | cancelOuter => exact h

/-- What abandoning has come to, at any time of a join. -/
structure Abandoning (mode : JoinMode) (children : List Nat) (s : Joining V E) : Prop where
  sound : Sound mode children s
  handled : Handled s
  started : Started s

theorem Abandoning.act (h : Abandoning mode children s) (a : Action V E) : Abandoning mode children (s.act a) := by
  refine ⟨h.sound.act a, ?_, ?_⟩
  · cases a with
    | step stalled => exact h.handled.step stalled
    | event e =>
      intro id hid
      rcases h.handled id (claim_apply hid) with hsettled | hhandler
      · exact .inl ((s.scope.later_apply e id).settled hsettled).1
      · exact .inr hhandler
  · cases a with
    | step stalled => exact h.started.step h.sound.collects stalled
    | event e => exact h.started.of_same (s.scope.later_apply e) rfl rfl (fun _ hi => hi) fun _ _ hi => hi

theorem abandoning_joinAll (hdone : HandlersDone scope) (mode : JoinMode) (actions : List (Action V E)) :
    Abandoning mode scope.children ((joinAll mode scope).run actions) := by
  have hrun (s : Joining V E) (actions : List (Action V E)) (h : Abandoning mode scope.children s) :
      Abandoning mode scope.children (s.run actions) := by
    induction actions generalizing s with
    | nil => exact h
    | cons a actions ih => exact ih (s.act a) (h.act a)
  refine hrun _ actions ⟨sound_joinAll mode scope [], .of_done hdone, ?_⟩
  intro h
  cases h

/-- The teardown of a scope joins every child when it ends, and it ends by itself once the
    children that were started have ended. -/
structure TornDown (children : List Nat) (scope : TaskScope V E) : Prop where
  joined : ∀ actions outcome, (scope.retire.run actions).join.phase = .ended outcome →
    Joined children (scope.retire.run actions) outcome
  ends : HandlersDone scope → ∀ actions,
    (∀ id ∈ children, ((scope.retire.run actions).scope.tasks id).settled = true ∨
      ((scope.retire.run actions).scope.tasks id).claim = some .unstarted ∨
      ((scope.retire.run actions).scope.tasks id).claim = some .abandoner) →
    Ends (scope.retire.run actions)

omit [Inhabited V] in
theorem finish_ne (s : Joining V E) : s.finish ≠ .threw .nestedBlocking := by
  unfold finish
  split <;> nofun

/-- Only a normal join gives up waiting, and it hands its children back. -/
theorem handedBack (h : Sound mode children s) (hended : s.join.phase = .ended (.threw .nestedBlocking)) :
    mode = .normal ∧ s.scope.children = children := by
  rcases h.phased.ended _ hended with ⟨hfinish, -⟩ | ⟨-, hmode, hback⟩
  · exact absurd hfinish.symm (finish_ne s)
  · exact ⟨h.mode ▸ hmode, h.snapshot ▸ hback⟩

theorem tornDown (scope : TaskScope V E) : TornDown scope.children scope where
  joined actions outcome hended := by
    have hsound := sound_joinAll .teardown scope.cancelAll actions
    refine hsound.joined hended ?_
    rintro rfl
    cases (handedBack hsound hended).1
  ends hdone actions hquiet := by
    have hdone' : HandlersDone scope.cancelAll := hdone
    have habandoning := abandoning_joinAll hdone' .teardown actions
    exact Closing.ends ⟨habandoning.sound, habandoning.handled, habandoning.started, hquiet⟩

/-- A join that ended has joined every child, and has cancelled nobody without an error, or has
    handed its children back to a teardown that joins them. -/
theorem scope_join (mode : JoinMode) (scope : TaskScope V E) (actions : List (Action V E))
    {outcome : JoinOutcome V E} (hended : ((joinAll mode scope).run actions).join.phase = .ended outcome) :
    (outcome ≠ .threw .nestedBlocking → Joined scope.children ((joinAll mode scope).run actions) outcome) ∧
      (outcome = .threw .nestedBlocking → mode = .normal ∧
        TornDown scope.children ((joinAll mode scope).run actions).scope ∧
          (HandlersDone scope → HandlersDone ((joinAll mode scope).run actions).scope)) ∧
      ∀ id, ((joinAll mode scope).run actions).scope.isTaskCancelled id = true →
        scope.isTaskCancelled id = true ∨ .event (.cancel id) ∈ actions ∨ .event .cancelOuter ∈ actions ∨
          ∃ id' ∈ scope.children, (((joinAll mode scope).run actions).scope.tasks id').error ≠ none := by
  have hsound := sound_joinAll mode scope actions
  refine ⟨hsound.joined hended, ?_, fun id hid => ?_⟩
  · rintro rfl
    obtain ⟨hmode, hback⟩ := handedBack hsound hended
    refine ⟨hmode, hback ▸ tornDown _, fun hdone => ?_⟩
    exact (abandoning_joinAll hdone mode actions).handled.done (hended ▸ nofun)
  · rcases isTaskCancelled_run (joinAll mode scope) actions id hid with hbefore | hcancel | houter | herror
    · exact .inl hbefore
    · exact .inr (.inl hcancel)
    · exact .inr (.inr (.inl houter))
    · obtain ⟨e, he⟩ := Option.isSome_iff_exists.mp herror
      rw [hsound.collects.firstError] at he
      obtain ⟨i, -, hi⟩ := List.exists_of_findSome?_eq_some he
      obtain ⟨id', hid', herror'⟩ := Option.bind_eq_some_iff.mp hi
      exact .inr (.inr (.inr ⟨id', hsound.snapshot ▸ List.mem_of_getElem? hid', by rw [herror']; nofun⟩))

/-- Two children that run. -/
def twoChildren : TaskScope Nat String := { tasks := fun _ => { claim := some .worker }, children := [0, 1] }

/-- The second child is cancelled, the first returns 7, and the join collects both. -/
def twoEnding : List (Action Nat String) :=
  [.event (.cancel 1), .event (.resolve 1 .cancelled), .event (.resolve 0 (.value 7)), .step false, .step false,
    .step false, .step false, .step false]

theorem scope_join_two : Joined [0, 1] ((joinAll .normal twoChildren).run twoEnding) (.returned [7, 0]) :=
  (scope_join .normal twoChildren twoEnding rfl).1 nofun

end Joining

end Luma.Concurrency
