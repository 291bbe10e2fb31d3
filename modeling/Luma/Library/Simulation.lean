-- SUMMARY: Simulations between computations with state and exceptions.
import Luma.Library.Triple

/-! # Simulations

A computation over concrete states behaves as one over abstract states: from related
states both end in the same way, in related states. The abstract computation may get
lost; from then on nothing is claimed. -/

namespace Stateful

variable {σ τ ε α β : Type}

/-- `m` over concrete states behaves as `m'` over abstract states, unless `m'` gets lost. -/
structure Simulates (R : σ → τ → Prop) (Lost : τ → Prop) (m : Stateful σ ε α) (m' : Stateful τ ε α) : Prop where
  agree : ∀ {s t}, R s t → Lost (m'.runFrom t).2 ∨
    (m.runFrom s).1 = (m'.runFrom t).1 ∧ R (m.runFrom s).2 (m'.runFrom t).2
  lost : ∀ {t}, Lost t → Lost (m'.runFrom t).2

variable {R : σ → τ → Prop} {Lost : τ → Prop} {m : Stateful σ ε α} {m' : Stateful τ ε α}

namespace Simulates

theorem pure {a : α} : Simulates R Lost (Pure.pure a : Stateful σ ε α) (Pure.pure a) where
  agree h := Or.inr ⟨rfl, h⟩
  lost h := h

theorem throw {e : ε} : Simulates R Lost (MonadExcept.throw e : Stateful σ ε α) (MonadExcept.throw e) where
  agree h := Or.inr ⟨rfl, h⟩
  lost h := h

/-- What both read from related states is the same. -/
theorem gets {f : σ → α} {g : τ → α} (h : ∀ {s t}, R s t → f s = g t) :
    Simulates R Lost (f <$> get : Stateful σ ε α) (g <$> get) where
  agree hR := Or.inr ⟨congrArg Except.ok (h hR), hR⟩
  lost h := h

theorem modify {f : σ → σ} {g : τ → τ} (h : ∀ {s t}, R s t → R (f s) (g t)) (hlost : ∀ {t}, Lost t → Lost (g t)) :
    Simulates R Lost (MonadState.modifyGet fun s => (⟨⟩, f s) : Stateful σ ε PUnit)
      (MonadState.modifyGet fun t => (⟨⟩, g t)) where
  agree hR := Or.inr ⟨rfl, h hR⟩
  lost := hlost

theorem bind {f : α → Stateful σ ε β} {f' : α → Stateful τ ε β} (hm : Simulates R Lost m m')
    (hf : ∀ a, Simulates R Lost (f a) (f' a)) : Simulates R Lost (m >>= f) (m' >>= f') where
  agree {s t} hR := by
    rw [runFrom_bind, runFrom_bind]
    obtain hlost | ⟨hresult, hstate⟩ := hm.agree hR
    · left
      cases hrun : m'.runFrom t with
      | mk r t' =>
        rw [hrun] at hlost
        cases r with
        | ok a => exact (hf a).lost hlost
        | error e => exact hlost
    · cases hrun : m.runFrom s with
      | mk r s' =>
        cases hrun' : m'.runFrom t with
        | mk r' t' =>
          rw [hrun, hrun'] at hresult hstate
          cases hresult
          cases r with
          | ok a => exact (hf a).agree hstate
          | error e => exact Or.inr ⟨rfl, hstate⟩
  lost {t} hlost := by
    rw [runFrom_bind]
    have hend := hm.lost hlost
    cases hrun : m'.runFrom t with
    | mk r t' =>
      rw [hrun] at hend
      cases r with
      | ok a => exact (hf a).lost hend
      | error e => exact hend

theorem map {f : α → β} (hm : Simulates R Lost m m') : Simulates R Lost (f <$> m) (f <$> m') := by
  rw [← bind_pure_comp, ← bind_pure_comp]
  exact hm.bind fun _ => pure

theorem tryCatch {h : ε → Stateful σ ε α} {h' : ε → Stateful τ ε α} (hm : Simulates R Lost m m')
    (hh : ∀ e, Simulates R Lost (h e) (h' e)) : Simulates R Lost (tryCatch m h) (tryCatch m' h') where
  agree {s t} hR := by
    rw [runFrom_tryCatch, runFrom_tryCatch]
    obtain hlost | ⟨hresult, hstate⟩ := hm.agree hR
    · left
      cases hrun : m'.runFrom t with
      | mk r t' =>
        rw [hrun] at hlost
        cases r with
        | ok a => exact hlost
        | error e => exact (hh e).lost hlost
    · cases hrun : m.runFrom s with
      | mk r s' =>
        cases hrun' : m'.runFrom t with
        | mk r' t' =>
          rw [hrun, hrun'] at hresult hstate
          cases hresult
          cases r with
          | ok a => exact Or.inr ⟨rfl, hstate⟩
          | error e => exact (hh e).agree hstate
  lost {t} hlost := by
    rw [runFrom_tryCatch]
    have hend := hm.lost hlost
    cases hrun : m'.runFrom t with
    | mk r t' =>
      rw [hrun] at hend
      cases r with
      | ok a => exact hend
      | error e => exact (hh e).lost hend

theorem ite {c : Prop} [Decidable c] {n : Stateful σ ε α} {n' : Stateful τ ε α} (hthen : Simulates R Lost m m')
    (helse : Simulates R Lost n n') : Simulates R Lost (if c then m else n) (if c then m' else n') := by
  by_cases hc : c
  · rwa [if_pos hc, if_pos hc]
  · rwa [if_neg hc, if_neg hc]

end Simulates

end Stateful
