-- SUMMARY: Task scopes are retired in order unless one is left behind.
import Luma.Compiler.TaskScopes
import Luma.Types.TypeInfo

/-! # Task Scopes Are Retired in Order

As long as nothing is left behind, every scope is retired exactly once, by the TaskScopeEnd
of its own expression or by an error that leaves it, and the stack of scopes is what it was
wherever control goes on. -/

namespace Luma.TaskScopes

open ScopeCode ScopeState Outcome

/-! ## Operations on the bookkeeping -/

namespace ScopeState

variable {s : ScopeState}

theorem initial_valid : initial.Valid where
  distinct := List.nodup_nil
  begun := by simp [initial]
  opened := by simp [initial]
  once := by simp [initial]
  unopened := by simp [initial]
  ended := by simp [initial]
  spawned := by simp [initial]
  joined := by simp [initial]

/-- Nothing but the handlers and the count of lapses has changed. -/
theorem Valid.congr {t : ScopeState} (h : s.Valid) (hscopes : t.taskScopes = s.taskScopes)
    (hnext : t.nextScope = s.nextScope) (hlog : t.log = s.log) : t.Valid where
  distinct := hscopes ▸ h.distinct
  begun := by rw [hlog, hnext]; exact h.begun
  opened := by rw [hscopes, hnext]; exact h.opened
  once := by rw [hlog, hnext, hscopes]; exact h.once
  unopened := by rw [hlog, hnext]; exact h.unopened
  ended := by rw [hlog]; exact h.ended
  spawned := by rw [hlog, hnext]; exact h.spawned
  joined := by rw [hlog, hscopes]; exact h.joined

theorem Valid.opTryCatch (h : s.Valid) : s.opTryCatch.Valid := h.congr rfl rfl rfl

theorem Valid.opTryEnd (h : s.Valid) : s.opTryEnd.Valid := h.congr rfl rfl rfl

theorem Valid.handleTaskScopeBegin (h : s.Valid) : s.handleTaskScopeBegin.Valid where
  distinct := List.nodup_cons.mpr ⟨fun hmem => (h.opened _ hmem).false, h.distinct⟩
  begun := by
    intro scope
    simp only [ScopeState.handleTaskScopeBegin, List.mem_cons, ScopeEvent.begun.injEq, h.begun]
    omega
  opened := by
    intro scope hmem
    obtain rfl | hmem := List.mem_cons.mp hmem
    · exact Nat.lt_succ_self _
    · exact Nat.lt_succ_of_lt (h.opened scope hmem)
  once := by
    intro scope hlt
    simp only [ScopeState.handleTaskScopeBegin, List.mem_cons] at hlt ⊢
    rw [List.count_cons_of_ne (by simp)]
    by_cases hnew : scope = s.nextScope
    · rw [if_pos (.inl hnew)]
      exact h.unopened scope hnew.ge
    · rw [h.once scope (by omega)]
      simp [hnew]
  unopened := by
    intro scope hle
    simp only [ScopeState.handleTaskScopeBegin] at hle ⊢
    rw [List.count_cons_of_ne (by simp)]
    exact h.unopened scope (by omega)
  ended := by
    intro own joined hmem
    exact h.ended own joined (by simpa [ScopeState.handleTaskScopeBegin] using hmem)
  spawned := by
    intro task scope hmem
    have := h.spawned task scope (by simpa [ScopeState.handleTaskScopeBegin] using hmem)
    exact Nat.lt_succ_of_lt this
  joined := by
    intro task scope hmem hopen
    have hjoined := h.joined task scope (by simpa [ScopeState.handleTaskScopeBegin] using hmem)
      fun hmem => hopen (List.mem_cons_of_mem _ hmem)
    exact List.mem_cons_of_mem _ hjoined

theorem Valid.handleSpawn (h : s.Valid) : s.handleSpawn.Valid where
  distinct := h.distinct
  begun := by
    intro scope
    simpa [ScopeState.handleSpawn] using h.begun scope
  opened := h.opened
  once := by
    intro scope hlt
    simp only [ScopeState.handleSpawn]
    rw [List.count_cons_of_ne (by simp)]
    exact h.once scope hlt
  unopened := by
    intro scope hle
    simp only [ScopeState.handleSpawn]
    rw [List.count_cons_of_ne (by simp)]
    exact h.unopened scope hle
  ended := by
    intro own joined hmem
    exact h.ended own joined (by simpa [ScopeState.handleSpawn] using hmem)
  spawned := by
    intro task scope hmem
    simp only [ScopeState.handleSpawn, List.mem_cons, ScopeEvent.spawned.injEq] at hmem
    obtain ⟨-, hhead⟩ | hmem := hmem
    · exact h.opened scope (List.mem_of_mem_head? hhead.symm)
    · exact h.spawned task scope hmem
  joined := by
    intro task scope hmem hopen
    simp only [ScopeState.handleSpawn, List.mem_cons, ScopeEvent.spawned.injEq] at hmem
    obtain ⟨-, hhead⟩ | hmem := hmem
    · exact absurd (List.mem_of_mem_head? hhead.symm) hopen
    · exact List.mem_cons_of_mem _ (h.joined task scope hmem hopen)

theorem mem_children {scope : Nat} {task : Nat} {log : List ScopeEvent} :
    task ∈ children scope log ↔ .spawned task (some scope) ∈ log := by
  unfold children
  rw [List.mem_filterMap]
  constructor
  · rintro ⟨event, hmem, hevent⟩
    split at hevent
    · rename_i parent
      split at hevent
      · rename_i hparent
        cases hevent
        exact hparent ▸ hmem
      · cases hevent
    · cases hevent
  · intro hmem
    exact ⟨_, hmem, by simp⟩

theorem count_joined {scope : Nat} {tasks : List Nat} :
    (tasks.map ScopeEvent.joined).count (.retired scope) = 0 := by
  rw [List.count_eq_zero]
  simp

theorem Valid.retireTaskScope (h : s.Valid) : s.retireTaskScope.Valid := by
  unfold ScopeState.retireTaskScope
  split
  · exact h
  rename_i scope taskScopes hscopes
  have hdistinct : scope ∉ taskScopes ∧ taskScopes.Nodup := by
    rw [← List.nodup_cons, ← hscopes]
    exact h.distinct
  have hlt : scope < s.nextScope := h.opened scope (hscopes ▸ List.mem_cons_self)
  constructor
  · exact hdistinct.2
  · intro other
    simpa using h.begun other
  · intro other hmem
    exact h.opened other (hscopes ▸ List.mem_cons_of_mem _ hmem)
  · intro other hother
    have honce := h.once other hother
    by_cases hsame : other = scope
    · subst hsame
      rw [List.count_cons_self, List.count_append, count_joined, honce, hscopes]
      simp [hdistinct.1]
    · rw [List.count_cons_of_ne (by simpa using Ne.symm hsame), List.count_append, count_joined,
        honce, hscopes]
      simp [hsame]
  · intro other hle
    have hne : other ≠ scope := by
      rintro rfl
      exact absurd hlt (by simpa using hle)
    rw [List.count_cons_of_ne (by simpa using Ne.symm hne), List.count_append, count_joined,
      h.unopened other hle]
  · intro own joined hmem
    exact h.ended own joined (by simpa using hmem)
  · intro task other hmem
    exact h.spawned task other (by simpa using hmem)
  · intro task other hmem hopen
    have hmem' : .spawned task (some other) ∈ s.log := by simpa using hmem
    refine List.mem_cons_of_mem _ (List.mem_append.mpr ?_)
    by_cases hsame : other = scope
    · subst hsame
      exact .inl (List.mem_map_of_mem (mem_children.mpr hmem'))
    · refine .inr (h.joined task other hmem' ?_)
      rw [hscopes]
      simp [hsame, hopen]

theorem retireTaskScope_of_cons {scope : Nat} {rest : List Nat}
    (h : s.taskScopes = scope :: rest) :
    s.retireTaskScope.taskScopes = rest ∧ s.retireTaskScope.handlers = s.handlers ∧
      s.retireTaskScope.lapses = s.lapses := by
  simp [retireTaskScope, h]

/-- Retiring the scopes above the ones that were open. -/
theorem unwind_above {above scopes : List Nat} (hvalid : s.Valid)
    (h : s.taskScopes = above ++ scopes) :
    (s.unwindTaskScopesTo scopes.length).Valid ∧
      (s.unwindTaskScopesTo scopes.length).taskScopes = scopes ∧
      (s.unwindTaskScopesTo scopes.length).handlers = s.handlers ∧
      (s.unwindTaskScopesTo scopes.length).lapses = s.lapses := by
  have hcount : s.taskScopes.length - scopes.length = above.length := by simp [h]
  rw [unwindTaskScopesTo, hcount]
  clear hcount
  induction above generalizing s with
  | nil => exact ⟨hvalid, h, rfl, rfl⟩
  | cons scope above ih =>
    obtain ⟨hrest, hhandlers, hlapses⟩ := retireTaskScope_of_cons (by simpa using h)
    rw [List.length_cons, Function.iterate_succ_apply, ← hhandlers, ← hlapses]
    exact ih hvalid.retireTaskScope hrest

theorem retireTaskScope_counters :
    s.retireTaskScope.lapses = s.lapses ∧ s.retireTaskScope.nextScope = s.nextScope := by
  unfold retireTaskScope
  split <;> exact ⟨rfl, rfl⟩

theorem unwind_counters {depth : Nat} : (s.unwindTaskScopesTo depth).lapses = s.lapses ∧
    (s.unwindTaskScopesTo depth).nextScope = s.nextScope := by
  unfold unwindTaskScopesTo
  generalize s.taskScopes.length - depth = count
  induction count generalizing s with
  | zero => exact ⟨rfl, rfl⟩
  | succ count ih =>
    obtain ⟨hlapses, hnext⟩ := ih (s := s.retireTaskScope)
    rw [Function.iterate_succ_apply, hlapses, hnext]
    exact retireTaskScope_counters

theorem handleError_counters :
    s.handleError.lapses = s.lapses ∧ s.handleError.nextScope = s.nextScope := by
  unfold handleError
  split
  · exact ⟨rfl, rfl⟩
  · exact unwind_counters

theorem handleTaskScopeEnd_counters {own : Nat} : (s.handleTaskScopeEnd own).lapses = s.lapses ∧
    (s.handleTaskScopeEnd own).nextScope = s.nextScope := by
  unfold handleTaskScopeEnd
  split
  · exact ⟨rfl, rfl⟩
  · exact retireTaskScope_counters

/-- TaskScopeEnd where the innermost scope is the one its own expression began. -/
theorem Valid.handleTaskScopeEnd {own : Nat} {scopes : List Nat} (h : s.Valid)
    (hscopes : s.taskScopes = own :: scopes) :
    (s.handleTaskScopeEnd own).Valid ∧ (s.handleTaskScopeEnd own).taskScopes = scopes ∧
      (s.handleTaskScopeEnd own).handlers = s.handlers := by
  have hlogged : ({ s with log := .ended own own :: s.log } : ScopeState).Valid :=
    { distinct := h.distinct
      begun := by simpa using h.begun
      opened := h.opened
      once := by simpa using h.once
      unopened := by simpa using h.unopened
      ended := by
        intro own' joined hmem
        simp only [List.mem_cons, ScopeEvent.ended.injEq] at hmem
        obtain ⟨rfl, rfl⟩ | hmem := hmem
        · rfl
        · exact h.ended own' joined hmem
      spawned := by simpa using h.spawned
      joined := by simpa using h.joined }
  have heq : s.handleTaskScopeEnd own =
      ScopeState.retireTaskScope { s with log := .ended own own :: s.log } := by
    simp only [ScopeState.handleTaskScopeEnd, hscopes]
  rw [heq]
  obtain ⟨hrest, hhandlers, -⟩ := retireTaskScope_of_cons
    (show ({ s with log := .ended own own :: s.log } : ScopeState).taskScopes = own :: scopes from
      hscopes)
  exact ⟨hlogged.retireTaskScope, hrest, hhandlers⟩

end ScopeState

/-! ## Runs -/

variable {prog : ScopeProgram} {c : ScopeCode} {s t : ScopeState} {o : Outcome}

/-- The counters never go back. -/
structure Later (s t : ScopeState) : Prop where
  lapses : s.lapses ≤ t.lapses
  nextScope : s.nextScope ≤ t.nextScope

namespace Later

theorem refl (s : ScopeState) : Later s s := ⟨le_rfl, le_rfl⟩

theorem trans {u : ScopeState} (h : Later s t) (h' : Later t u) : Later s u :=
  ⟨h.lapses.trans h'.lapses, h.nextScope.trans h'.nextScope⟩

theorem lapse (h : Later s t) : Later s t.lapse := ⟨h.lapses.trans (Nat.le_succ _), h.nextScope⟩

/-- A `try` that is left past its handler, and one that is left through it. -/
theorem passTry (h : Later s.opTryCatch t) : Later s t.opTryEnd := ⟨h.lapses, h.nextScope⟩

theorem catchTry (h : Later s.opTryCatch t) : Later s t.handleError :=
  ⟨h.lapses.trans handleError_counters.1.ge, h.nextScope.trans handleError_counters.2.ge⟩

theorem unwind (h : Later s t) {depth : Nat} : Later s (t.unwindTaskScopesTo depth) :=
  ⟨h.lapses.trans unwind_counters.1.ge, h.nextScope.trans unwind_counters.2.ge⟩

/-- A scope that was begun. -/
theorem begun (h : Later s.handleTaskScopeBegin t) : Later s t :=
  ⟨h.lapses, (Nat.le_succ _).trans h.nextScope⟩

theorem endScope {own : Nat} (h : Later s t) : Later s (t.handleTaskScopeEnd own) :=
  ⟨h.lapses.trans handleTaskScopeEnd_counters.1.ge,
    h.nextScope.trans handleTaskScopeEnd_counters.2.ge⟩

end Later

theorem Executes.later (h : Executes prog c s o t) : Later s t := by
  induction h with
  | interrupt | skip | simple | simpleRaises | starEnd | breaks | continues | returns | spawnRaises
  | callEnds | callRaises => exact .refl _
  | spawns => exact ⟨le_rfl, le_rfl⟩
  | seq _ _ ih ih' => exact ih.trans ih'
  | seqStop _ _ ih => exact ih
  | eitherLeft _ ih => exact ih
  | eitherRight _ ih => exact ih
  | starAgain _ _ ih ih' => exact ih.trans ih'
  | starStop _ _ ih => exact ih
  | loopAgain _ _ _ ih ih' => exact ih.trans ih'
  | loopBreaks _ ih => exact ih
  | loopStop _ _ ih => exact ih
  | tryPasses _ _ ih => exact ih.passTry
  | tryLeaves _ ih => exact ih.passTry
  | tryCatches _ _ ih ih' => exact ih.catchTry.trans ih'
  | tryAborts _ ih => exact ih.catchTry.lapse
  | tryStop _ _ ih => exact ⟨ih.lapses, ih.nextScope⟩
  | finallyPasses _ _ _ ih ih' => exact ih.passTry.trans ih'
  | finallyLeaves _ ih => exact ih.passTry
  | finallyCatches _ _ ih ih' => exact ih.catchTry.trans ih'
  | finallyAborts _ ih => exact ih.catchTry.lapse
  | finallyStop _ _ ih => exact ⟨ih.lapses, ih.nextScope⟩
  | scopeEnds _ ih => exact ih.begun.endScope
  | scopeRaises _ ih => exact ih.begun.endScope
  | scopeStop _ _ ih => exact ih.begun
  | scopeEscapes _ _ ih => exact ih.begun.lapse
  | callReturns _ _ _ _ ih ih' => exact ih.trans ih'
  | callThrows _ _ _ ih => exact ih
  | callbackThrows _ _ _ ih ih' => exact ih.unwind.trans ih'
  | callbackAborts _ _ _ ih ih' => exact ih.trans ⟨ih'.lapses, ih'.nextScope⟩
  | fieldDefaults _ _ ih => exact ih

/-- What a run without a lapse does to the bookkeeping. -/
def Orderly (s : ScopeState) (o : Outcome) (t : ScopeState) : Prop :=
  t.lapses = s.lapses → s.Valid → o ≠ aborted ∧ t.Valid ∧ Keeps s o t

theorem Keeps.refl (s : ScopeState) (o : Outcome) : Keeps s o s :=
  ⟨fun _ => ⟨rfl, rfl⟩, fun _ => rfl, List.suffix_rfl⟩

theorem Orderly.refl (ho : o ≠ aborted) : Orderly s o s :=
  fun _ hvalid => ⟨ho, hvalid, .refl s o⟩

/-- The state before and after has the same stacks. -/
theorem Orderly.same {u : ScopeState} (h : t.Valid → u.Valid)
    (hscopes : u.taskScopes = t.taskScopes) (hhandlers : u.handlers = t.handlers)
    (ho : o ≠ aborted) : Orderly t o u :=
  fun _ hvalid => ⟨ho, h hvalid, fun _ => ⟨hscopes, hhandlers⟩, fun _ => hhandlers,
    hscopes ▸ List.suffix_rfl⟩

/-- One run after another that came to its end. -/
theorem Orderly.trans {u : ScopeState} {o' : Outcome} (h : Orderly s o t) (h' : Orderly t o' u)
    (ho : o.Completes) (hlater : Later s t) (hlater' : Later t u) : Orderly s o' u := by
  intro hlapses hvalid
  have hle := hlater.lapses
  have hle' := hlater'.lapses
  obtain ⟨-, hvalid', hkeeps⟩ := h (by omega) hvalid
  obtain ⟨hstays, hvalid'', hkeeps'⟩ := h' (by omega) hvalid'
  obtain ⟨hscopes, hhandlers⟩ := hkeeps.completed ho
  refine ⟨hstays, hvalid'', fun ho' => ?_, fun ho' => ?_, ?_⟩
  · rw [← hscopes, ← hhandlers]
    exact hkeeps'.completed ho'
  · rw [← hhandlers]
    exact hkeeps'.raised ho'
  · rw [← hscopes]
    exact hkeeps'.inside

/-- A run that ends in another way than its code says, but is as orderly. -/
theorem Orderly.rename {o' : Outcome} (h : Orderly s o t)
    (hcompletes : o'.Completes ∨ o' = Outcome.raised → o.Completes)
    (haborted : o' ≠ aborted) : Orderly s o' t := by
  intro hlapses hvalid
  obtain ⟨-, hvalid', hkeeps⟩ := h hlapses hvalid
  exact ⟨haborted, hvalid', fun ho => hkeeps.completed (hcompletes (.inl ho)),
    fun ho => (hkeeps.completed (hcompletes (.inr ho))).2, hkeeps.inside⟩

/-- With a lapse there is nothing to show. -/
theorem Orderly.of_lapse (h : Later s t) : Orderly s o t.lapse := by
  intro hlapses
  have hle := h.lapses
  simp only [lapse] at hlapses
  omega

/-- The body of a `try` that is left past its handler. -/
theorem Orderly.leaveTry (h : Orderly s.opTryCatch o t) (ho : o.Completes ∨ o = Outcome.raised) :
    Orderly s o t.opTryEnd := by
  intro hlapses hvalid
  obtain ⟨hstays, hvalid', hkeeps⟩ := h hlapses hvalid.opTryCatch
  have hhandlers : t.handlers = s.taskScopes.length :: s.handlers := by
    obtain ho | ho := ho
    · exact (hkeeps.completed ho).2
    · exact hkeeps.raised ho
  have hend : t.opTryEnd.handlers = s.handlers := by
    rw [opTryEnd, hhandlers]
    rfl
  exact ⟨hstays, hvalid'.opTryEnd, fun ho => ⟨(hkeeps.completed ho).1, hend⟩, fun _ => hend,
    hkeeps.inside⟩

/-- The body of a `try` that is not left at all. -/
theorem Orderly.stopTry (h : Orderly s.opTryCatch o t) (ho : o = aborted ∨ o = interrupted) :
    Orderly s o t := by
  intro hlapses hvalid
  obtain ⟨hstays, hvalid', hkeeps⟩ := h hlapses hvalid.opTryCatch
  obtain rfl | rfl := ho
  · exact absurd rfl hstays
  · exact ⟨hstays, hvalid', False.elim, nofun, hkeeps.inside⟩

/-- An error resumes at the handler of the `try` it leaves, with the stacks as they were. -/
theorem Orderly.resume (h : Orderly s.opTryCatch Outcome.raised t) :
    Orderly s normal t.handleError := by
  intro hlapses hvalid
  rw [handleError_counters.1] at hlapses
  obtain ⟨-, hvalid', hkeeps⟩ := h hlapses hvalid.opTryCatch
  have hhandlers : t.handlers = s.taskScopes.length :: s.handlers := hkeeps.raised rfl
  obtain ⟨above, habove⟩ := hkeeps.inside
  have hpopped : ({ t with handlers := s.handlers } : ScopeState).Valid := hvalid'.congr rfl rfl rfl
  have hunwound : t.handleError =
      unwindTaskScopesTo s.taskScopes.length { t with handlers := s.handlers } := by
    simp only [handleError, hhandlers]
  obtain ⟨hvalid'', hscopes, hhandlers', -⟩ := unwind_above hpopped habove.symm
  rw [hunwound]
  refine ⟨nofun, hvalid'', fun _ => ⟨hscopes, hhandlers'⟩, nofun, ?_⟩
  exact ⟨[], hscopes.symm⟩

/-- An error that leaves a callback retires the scopes the callback opened. -/
theorem Orderly.leaveCallback (h : Orderly s Outcome.raised t) :
    Orderly s normal (t.unwindTaskScopesTo s.taskScopes.length) := by
  intro hlapses hvalid
  rw [unwind_counters.1] at hlapses
  obtain ⟨-, hvalid', hkeeps⟩ := h hlapses hvalid
  obtain ⟨above, habove⟩ := hkeeps.inside
  obtain ⟨hvalid'', hscopes, hhandlers, -⟩ := unwind_above hvalid' habove.symm
  exact ⟨nofun, hvalid'', fun _ => ⟨hscopes, hhandlers.trans (hkeeps.raised rfl)⟩, nofun,
    ⟨[], hscopes.symm⟩⟩

theorem Orderly.endScope {o' : Outcome} (h : Orderly s.handleTaskScopeBegin normal t)
    (ho : o' ≠ aborted) : Orderly s o' (t.handleTaskScopeEnd s.nextScope) := by
  intro hlapses hvalid
  rw [handleTaskScopeEnd_counters.1] at hlapses
  obtain ⟨-, hvalid', hkeeps⟩ := h hlapses hvalid.handleTaskScopeBegin
  obtain ⟨hscopes, hhandlers⟩ := hkeeps.completed trivial
  obtain ⟨hvalid'', hscopes', hhandlers'⟩ := hvalid'.handleTaskScopeEnd hscopes
  have hsame := hhandlers'.trans hhandlers
  exact ⟨ho, hvalid'', fun _ => ⟨hscopes', hsame⟩, fun _ => hsame,
    ⟨[], hscopes'.symm⟩⟩

/-- An error leaves the scope open until its handler is found. -/
theorem Orderly.stopScope (h : Orderly s.handleTaskScopeBegin o t) (ho : ¬ o.Completes) :
    Orderly s o t := by
  intro hlapses hvalid
  obtain ⟨hstays, hvalid', hkeeps⟩ := h hlapses hvalid.handleTaskScopeBegin
  exact ⟨hstays, hvalid', fun ho' => absurd ho' ho, hkeeps.raised,
    (List.suffix_cons s.nextScope s.taskScopes).trans hkeeps.inside⟩

/-- A cleanup keeps what it ends with, or what came before it. -/
theorem Orderly.after {u : ScopeState} {o' : Outcome} (h : Orderly s o' u) (ho : o ≠ aborted) :
    Orderly s (o.after o') u := by
  cases o' with
  | normal => exact h.rename (fun _ => trivial) ho
  | _ => exact h

/-- Every run is orderly if nothing is left behind in it. -/
theorem Executes.orderly (h : Executes prog c s o t) : Orderly s o t := by
  induction h with
  | interrupt | skip | simple | simpleRaises | starEnd | breaks | continues | returns | spawnRaises
  | callEnds | callRaises => exact .refl nofun
  | spawns => exact .same (·.handleSpawn) rfl rfl nofun
  | seq h h' ih ih' => exact ih.trans ih' trivial h.later h'.later
  | seqStop _ _ ih => exact ih
  | eitherLeft _ ih => exact ih
  | eitherRight _ ih => exact ih
  | starAgain h h' ih ih' => exact ih.trans ih' trivial h.later h'.later
  | starStop _ _ ih => exact ih
  | loopAgain h ho h' ih ih' =>
    exact ih.trans ih' (by obtain rfl | rfl := ho <;> trivial) h.later h'.later
  | loopBreaks _ ih => exact ih.rename (fun _ => trivial) nofun
  | loopStop _ _ ih => exact ih
  | tryPasses _ ho ih => exact ih.leaveTry (.inl ho)
  | tryLeaves _ ih => exact ih.leaveTry (.inr rfl)
  | tryCatches h h' ih ih' =>
    exact ih.resume.trans ih' trivial h.later.catchTry h'.later
  | tryAborts h => exact .of_lapse h.later.catchTry
  | tryStop _ ho ih => exact ih.stopTry ho
  | finallyPasses h ho h' ih ih' =>
    refine ((ih.leaveTry (.inl ho)).trans ih' ho h.later.passTry h'.later).after ?_
    rintro rfl
    exact ho
  | finallyLeaves _ ih => exact ih.leaveTry (.inr rfl)
  | finallyCatches h h' ih ih' =>
    exact (ih.resume.trans ih' trivial h.later.catchTry
      h'.later).after nofun
  | finallyAborts h => exact .of_lapse h.later.catchTry
  | finallyStop _ ho ih => exact ih.stopTry ho
  | scopeEnds _ ih => exact ih.endScope nofun
  | scopeRaises _ ih => exact ih.endScope nofun
  | scopeStop _ ho ih =>
    refine ih.stopScope ?_
    obtain rfl | rfl | rfl := ho <;> exact id
  | scopeEscapes h => exact .of_lapse h.later.begun
  | callReturns _ h ho h' ih ih' =>
    exact ih.trans ih' (by obtain rfl | rfl := ho <;> trivial) h.later h'.later
  | callThrows _ _ _ ih => exact ih
  | callbackThrows _ h h' ih ih' =>
    exact ih.leaveCallback.trans ih' trivial h.later.unwind h'.later
  | callbackAborts _ h h' ih ih' =>
    intro hlapses hvalid
    have hle := h.later.lapses
    have hle' := h'.later.lapses
    exact absurd rfl (ih (by simp only at hle'; omega) hvalid).1
  | fieldDefaults _ _ ih => exact ih

/-! ## Scopes -/

/-- A scope has been retired, once, and its children have been joined. -/
def Retired (scope : Nat) (s : ScopeState) : Prop :=
  s.log.count (.retired scope) = 1 ∧
    ∀ task, .spawned task (some scope) ∈ s.log → .joined task ∈ s.log

theorem ScopeState.Valid.retired (h : s.Valid) {scope : Nat} (hlt : scope < s.nextScope)
    (hclosed : scope ∉ s.taskScopes) : Retired scope s :=
  ⟨by rw [h.once scope hlt, if_neg hclosed], fun task hmem => h.joined task scope hmem hclosed⟩

/-- A `task_scope` expression begins a scope before it can complete. -/
theorem Executes.begins {body : ScopeCode} (h : Executes prog (taskScope body) s o t)
    (ho : o.Completes) : s.nextScope < t.nextScope := by
  cases h with
  | interrupt => exact ho.elim
  | scopeEnds h => exact h.later.endScope.nextScope
  | scopeRaises => exact ho.elim
  | scopeStop h => exact h.later.nextScope
  | scopeEscapes h => exact h.later.nextScope

/-- In a run in which no jump leaves the body of a `task_scope` and every error finds room for
    its value, the bookkeeping of scopes is in order in every state, starting from that of a new
    VM. Where control goes on after any piece of code, the stacks are as before; in particular a
    `task_scope` expression has retired the scope it began. -/
theorem scopes_retired (hvalid : s.Valid) (h : Executes prog c s o t)
    (hlapses : t.lapses = s.lapses) :
    ScopeState.initial.Valid ∧ t.Valid ∧ Keeps s o t ∧
      ∀ body, c = taskScope body → o.Completes → Retired s.nextScope t := by
  obtain ⟨-, hvalid', hkeeps⟩ := h.orderly hlapses hvalid
  refine ⟨initial_valid, hvalid', hkeeps, ?_⟩
  rintro body rfl ho
  refine hvalid'.retired (h.begins ho) ?_
  rw [(hkeeps.completed ho).1]
  exact fun hmem => (hvalid.opened _ hmem).false

/-- `task_scope { spawn f() }`. -/
def spawning : Statement :=
  .expression (.taskScope [.expression (.spawn (.call (.variable (bytes "f")) [] [] []))])

theorem scopes_retired_spawning :
    ∃ t, Executes ⟨[], fun _ => []⟩ (spawning.compile false) initial normal t ∧
      Retired 0 t ∧ .spawned 0 (some 0) ∈ t.log := by
  have hrun : Executes ⟨[], fun _ => []⟩ (spawning.compile false) initial normal
      ((initial.handleTaskScopeBegin.handleSpawn).handleTaskScopeEnd 0) :=
    .scopeEnds (.seq (.seq .starEnd .spawns) .skip)
  obtain ⟨-, -, -, hretired⟩ := scopes_retired initial_valid hrun (by decide)
  exact ⟨_, hrun, hretired _ rfl trivial, by decide⟩

/-- `task_scope { while true { task_scope { break } } }`. -/
def escaping : Statement :=
  .expression (.taskScope [.whileStatement (.literal (.boolean true))
    [.expression (.taskScope [.breakStatement])]])

/-- The inner scope is left behind by the `break`. The TaskScopeEnd of the outer one joins it in
    its place, and the outer scope stays open for good. -/
theorem break_leaves_scope :
    ∃ t, Executes ⟨[], fun _ => []⟩ (escaping.compile false) initial normal t ∧
      ¬ t.Valid ∧ ¬ Keeps initial normal t ∧ .ended 0 1 ∈ t.log ∧ t.taskScopes = [0] := by
  refine ⟨_, .scopeEnds (.seq (.loopBreaks (.seq (.seq .simple .simple) (.eitherRight (.seqStop
    (.scopeEscapes (.seqStop .breaks nofun) trivial) nofun)))) .skip), ?_, ?_, by decide, by decide⟩
  · intro hvalid
    exact absurd (hvalid.ended 0 1 (by decide)) (by decide)
  · intro hkeeps
    exact absurd (hkeeps.completed trivial).1 (by decide)

end Luma.TaskScopes
