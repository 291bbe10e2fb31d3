-- SUMMARY: Machines that answer one request after another, their invariants and simulations.

/-! # Serving Requests

A machine takes a request in a state, gives an answer and moves to another state. A run
serves a list of requests; what one request preserves, every run preserves. -/

namespace Serving

variable {ρ σ τ α : Type}

/-- The answers to a list of requests, and the state after them. -/
def serve (step : ρ → σ → α × σ) : List ρ → σ → List α × σ
  | [], s => ([], s)
  | request :: requests, s =>
    let (answer, next) := step request s
    let (answers, last) := serve step requests next
    (answer :: answers, last)

/-- Every request is one that may be asked in the state where it is asked. -/
def Asks (step : ρ → σ → α × σ) (May : ρ → σ → Prop) : List ρ → σ → Prop
  | [], _ => True
  | request :: requests, s => May request s ∧ Asks step May requests (step request s).2

variable {step : ρ → σ → α × σ} {step' : ρ → τ → α × τ} {request : ρ} {requests : List ρ} {s : σ} {t : τ}

@[simp] theorem serve_nil : serve step [] s = ([], s) := rfl

@[simp] theorem serve_cons : serve step (request :: requests) s =
    ((step request s).1 :: (serve step requests (step request s).2).1, (serve step requests (step request s).2).2) := rfl

/-- A run of two lists of requests is a run of the second after the first. -/
theorem serve_append {later : List ρ} : (serve step (requests ++ later) s).2 =
    (serve step later (serve step requests s).2).2 := by
  induction requests generalizing s with
  | nil => rfl
  | cons r rest ih => exact ih

/-- What every request that may be asked preserves holds after a run. -/
theorem serve_invariant {May : ρ → σ → Prop} {P : σ → Prop} (hstep : ∀ r s, P s → May r s → P (step r s).2)
    (hasks : Asks step May requests s) (hs : P s) : P (serve step requests s).2 := by
  induction requests generalizing s with
  | nil => exact hs
  | cons r rest ih => exact ih hasks.2 (hstep r s hs hasks.1)

/-- What every request preserves holds after a run. -/
theorem serve_preserves {P : σ → Prop} (hstep : ∀ r s, P s → P (step r s).2) (hs : P s) :
    P (serve step requests s).2 := by
  induction requests generalizing s with
  | nil => exact hs
  | cons r rest ih => exact ih (hstep r s hs)

/-- Machines that answer alike from related states, and stay related, answer every run alike. -/
theorem serve_simulates {R : σ → τ → Prop}
    (hstep : ∀ r s t, R s t → (step r s).1 = (step' r t).1 ∧ R (step r s).2 (step' r t).2) (hR : R s t) :
    (serve step requests s).1 = (serve step' requests t).1 ∧
      R (serve step requests s).2 (serve step' requests t).2 := by
  induction requests generalizing s t with
  | nil => exact ⟨rfl, hR⟩
  | cons r rest ih =>
    obtain ⟨hanswer, hnext⟩ := hstep r s t hR
    obtain ⟨hanswers, hlast⟩ := ih hnext
    exact ⟨by rw [serve_cons, serve_cons, hanswer, hanswers], hlast⟩

end Serving
