-- SUMMARY: Hoare triples for computations with state and exceptions.
import Mathlib.Tactic.Common

/-! # Triples

A computation reads and changes a state, and ends with a value or with an
exception; the state survives an exception. A triple has a postcondition for each
of the two ends. -/

/-- Computations over states `σ` that end with a value or an exception in `ε`. -/
abbrev Stateful (σ ε : Type) := ExceptT ε (StateM σ)

namespace Stateful

variable {σ ε α β : Type}

/-- The end of a computation and the state it leaves. -/
def runFrom (m : Stateful σ ε α) (s : σ) : Except ε α × σ := m.run.run s

/-- From every state in `P`, the computation ends with a value and a state in `Q`,
    or with an exception and a state in `E`. -/
def Triple (P : σ → Prop) (m : Stateful σ ε α) (Q : α → σ → Prop) (E : ε → σ → Prop) : Prop :=
  ∀ s, P s → match m.runFrom s with
    | (.ok a, s') => Q a s'
    | (.error e, s') => E e s'

variable {P P' : σ → Prop} {Q Q' : α → σ → Prop} {R : β → σ → Prop} {E E' : ε → σ → Prop}
  {m : Stateful σ ε α} {f : α → Stateful σ ε β}

/-! ## Running -/

@[simp] theorem runFrom_pure {a : α} {s : σ} :
    (pure a : Stateful σ ε α).runFrom s = (.ok a, s) := rfl

@[simp] theorem runFrom_throw {e : ε} {s : σ} :
    (throw e : Stateful σ ε α).runFrom s = (.error e, s) := rfl

@[simp] theorem runFrom_get {s : σ} : (get : Stateful σ ε σ).runFrom s = (.ok s, s) := rfl

@[simp] theorem runFrom_set {s t : σ} : (set t : Stateful σ ε PUnit).runFrom s = (.ok ⟨⟩, t) := rfl

@[simp] theorem runFrom_modify {g : σ → σ} {s : σ} :
    (modify g : Stateful σ ε PUnit).runFrom s = (.ok ⟨⟩, g s) := rfl

theorem runFrom_bind {s : σ} : (m >>= f).runFrom s =
    match m.runFrom s with
    | (.ok a, s') => (f a).runFrom s'
    | (.error e, s') => (.error e, s') := by
  simp only [runFrom, ExceptT.run_bind, StateT.run_bind]
  cases h : m.run.run s with
  | mk r s' => cases r <;> rfl

theorem runFrom_map {g : α → β} {s : σ} : (g <$> m).runFrom s =
    match m.runFrom s with
    | (.ok a, s') => (.ok (g a), s')
    | (.error e, s') => (.error e, s') := by
  rw [← bind_pure_comp, runFrom_bind]
  rfl

theorem runFrom_tryCatch {handler : ε → Stateful σ ε α} {s : σ} : (tryCatch m handler).runFrom s =
    match m.runFrom s with
    | (.ok a, s') => (.ok a, s')
    | (.error e, s') => (handler e).runFrom s' := by
  simp only [runFrom, tryCatch, tryCatchThe, MonadExceptOf.tryCatch, ExceptT.tryCatch, ExceptT.run, ExceptT.mk,
    StateT.run_bind]
  cases h : StateT.run m s with
  | mk r s' => cases r <;> rfl

theorem runFrom_lift {r : Except ε α} {s : σ} : (liftM r : Stateful σ ε α).runFrom s = (r, s) := by
  cases r <;> rfl

/-! ## Rules -/

namespace Triple

theorem pure {a : α} : Triple (Q a) (Pure.pure a : Stateful σ ε α) Q E := fun _ hs => hs

theorem throw {e : ε} : Triple (E e) (MonadExcept.throw e : Stateful σ ε α) Q E := fun _ hs => hs

theorem get {Q : σ → σ → Prop} :
    Triple (fun s => Q s s) (MonadState.get : Stateful σ ε σ) Q E := fun _ hs => hs

theorem set {Q : PUnit → σ → Prop} {t : σ} :
    Triple (fun _ => Q ⟨⟩ t) (MonadStateOf.set t : Stateful σ ε PUnit) Q E := fun _ hs => hs

theorem modify {Q : PUnit → σ → Prop} {g : σ → σ} :
    Triple (fun s => Q ⟨⟩ (g s)) (modifyThe σ g : Stateful σ ε PUnit) Q E := fun _ hs => hs

theorem bind (hm : Triple P m Q E) (hf : ∀ a, Triple (Q a) (f a) R E) :
    Triple P (m >>= f) R E := by
  intro s hs
  have hend := hm s hs
  rw [runFrom_bind]
  cases hrun : m.runFrom s with
  | mk r s' =>
    rw [hrun] at hend
    cases r with
    | ok a => exact hf a s' hend
    | error e => exact hend

theorem map {g : α → β} (hm : Triple P m (fun a s => R (g a) s) E) : Triple P (g <$> m) R E := by
  rw [← bind_pure_comp]
  exact hm.bind fun a => pure

/-- A handler starts where the exception was thrown. -/
theorem tryCatch {handler : ε → Stateful σ ε α} (hm : Triple P m Q E') (hh : ∀ e, Triple (E' e) (handler e) Q E) :
    Triple P (MonadExcept.tryCatch m handler) Q E := by
  intro s hs
  have hend := hm s hs
  rw [runFrom_tryCatch]
  cases hrun : m.runFrom s with
  | mk r s' =>
    rw [hrun] at hend
    cases r with
    | ok a => exact hend
    | error e => exact hh e s' hend

/-- A computation without a state leaves the state as it is. -/
theorem lift {r : Except ε α} : Triple P (liftM r : Stateful σ ε α) (fun _ => P) (fun _ => P) := by
  intro s hs
  rw [runFrom_lift]
  cases r with
  | ok a => exact hs
  | error e => exact hs

/-- Every computation ends somewhere. -/
theorem top : Triple P m (fun _ _ => True) (fun _ _ => True) := by
  intro s _
  cases m.runFrom s with
  | mk r s' => cases r <;> trivial

/-- Strengthen the precondition and weaken the postconditions. -/
theorem conseq (hm : Triple P' m Q' E') (hP : ∀ s, P s → P' s) (hQ : ∀ a s, Q' a s → Q a s)
    (hE : ∀ e s, E' e s → E e s) : Triple P m Q E := by
  intro s hs
  have hend := hm s (hP s hs)
  cases hrun : m.runFrom s with
  | mk r s' =>
    rw [hrun] at hend
    cases r with
    | ok a => exact hQ a s' hend
    | error e => exact hE e s' hend

theorem weaken_pre (hm : Triple P' m Q E) (hP : ∀ s, P s → P' s) : Triple P m Q E :=
  fun s hs => hm s (hP s hs)

/-- A fact of the precondition that is not about the state. -/
theorem assume {F : Prop} (hm : F → Triple P m Q E) : Triple (fun s => F ∧ P s) m Q E :=
  fun s hs => hm hs.1 s hs.2

theorem and (hm : Triple P m Q E) (hm' : Triple P' m Q' E') :
    Triple (fun s => P s ∧ P' s) m (fun a s => Q a s ∧ Q' a s) (fun e s => E e s ∧ E' e s) := by
  rintro s ⟨hs, hs'⟩
  have hend := hm s hs
  have hend' := hm' s hs'
  cases hrun : m.runFrom s with
  | mk r s' =>
    rw [hrun] at hend hend'
    cases r with
    | ok a => exact ⟨hend, hend'⟩
    | error e => exact ⟨hend, hend'⟩

/-- A triple for every state of the precondition on its own. -/
theorem of_forall_state (hm : ∀ s, P s → Triple (· = s) m Q E) : Triple P m Q E :=
  fun s hs => hm s hs s rfl

/-- What follows a read of the state may depend on that state. -/
theorem get_bind {g : σ → Stateful σ ε α} (hg : ∀ s, P s → Triple P (g s) Q E) :
    Triple P (MonadState.get >>= g) Q E := by
  intro s hs
  exact hg s hs s hs

theorem ite {c : Prop} [Decidable c] {m' : Stateful σ ε α} (hthen : c → Triple P m Q E)
    (helse : ¬ c → Triple P m' Q E) : Triple P (if c then m else m') Q E := by
  by_cases hc : c
  · rw [if_pos hc]
    exact hthen hc
  · rw [if_neg hc]
    exact helse hc

end Triple

/-! ## Without a state -/

/-- A computation without a state ends with a value in `A`, or with an exception in `X`. -/
def Outcome (r : Except ε α) (A : α → Prop) (X : ε → Prop) : Prop :=
  match r with
  | .ok a => A a
  | .error e => X e

namespace Outcome

variable {r : Except ε α} {f : α → Except ε β} {A A' : α → Prop} {B : β → Prop} {X X' : ε → Prop}

theorem bind (hr : Outcome r A X) (hf : ∀ a, A a → Outcome (f a) B X) : Outcome (r >>= f) B X := by
  cases r with
  | ok a => exact hf a hr
  | error e => exact hr

theorem conseq (hr : Outcome r A' X') (hA : ∀ a, A' a → A a) (hX : ∀ e, X' e → X e) : Outcome r A X := by
  cases r with
  | ok a => exact hA a hr
  | error e => exact hX e hr

/-- Within a computation with a state, the state stays as it is. -/
theorem lift (hr : Outcome r A X) :
    Triple P (liftM r : Stateful σ ε α) (fun a s => A a ∧ P s) (fun e s => X e ∧ P s) := by
  intro s hs
  cases r with
  | ok a => exact ⟨hr, hs⟩
  | error e => exact ⟨hr, hs⟩

end Outcome

end Stateful
