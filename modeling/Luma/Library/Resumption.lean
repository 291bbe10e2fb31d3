-- SUMMARY: Stepping over data that grows: where a stepping stops, it resumes.
import Mathlib.Logic.Relation
import Mathlib.Tactic.Common

/-! # Resumption

A consumer steps over the data that has arrived and stops where it needs more. When a step
that can be made stays the same step as the data grows, the consumer that goes on from where
it stopped ends where one that starts with all of the data does. -/

namespace Resumption

variable {D S : Type}

/-- Steps stay what they are as the data grows. -/
def Monotone (grows : D → D → Prop) (step : D → S → Option S) : Prop :=
  ∀ {d d' s s'}, grows d d' → step d s = some s' → step d' s = some s'

section Reaching

variable (step : D → S → Option S)

def Reaches (d : D) : S → S → Prop := Relation.ReflTransGen fun s s' => step d s = some s'

/-- The state that has no further step. -/
def Halts (d : D) (s s' : S) : Prop := Reaches step d s s' ∧ step d s' = none

end Reaching

variable {grows : D → D → Prop} {step : D → S → Option S} {d d' : D} {s s₁ s₂ : S}

theorem Reaches.refl : Reaches step d s s := Relation.ReflTransGen.refl

theorem Reaches.head (hstep : step d s = some s₁) (h : Reaches step d s₁ s₂) : Reaches step d s s₂ :=
  Relation.ReflTransGen.head hstep h

theorem Reaches.trans (h : Reaches step d s s₁) (h' : Reaches step d s₁ s₂) : Reaches step d s s₂ :=
  Relation.ReflTransGen.trans h h'

/-- Of two states that are reached, one is reached from the other. -/
theorem Reaches.total (h₁ : Reaches step d s s₁) (h₂ : Reaches step d s s₂) : Reaches step d s₁ s₂ ∨ Reaches step d s₂ s₁ :=
  Relation.ReflTransGen.total_of_right_unique (fun _ _ _ h h' => Option.some.inj (h.symm.trans h')) h₁ h₂

/-- A state without a further step reaches itself only. -/
theorem Reaches.eq_of_none (hnone : step d s = none) (h : Reaches step d s s₁) : s₁ = s := by
  rcases Relation.ReflTransGen.cases_head h with rfl | ⟨s', hstep, -⟩
  · rfl
  · rw [hnone] at hstep
    cases hstep

/-- What is preserved by steps holds of what is reached. -/
theorem Reaches.invariant {P : S → Prop} (hstep : ∀ s s', P s → step d s = some s' → P s') (h : Reaches step d s s₁)
    (hs : P s) : P s₁ := by
  induction h with
  | refl => exact hs
  | tail _ hlast ih => exact hstep _ _ ih hlast

theorem Monotone.reaches (hmono : Monotone grows step) (hgrows : grows d d') (h : Reaches step d s s₁) :
    Reaches step d' s s₁ := by
  induction h with
  | refl => exact Reaches.refl
  | tail _ hlast ih => exact Relation.ReflTransGen.tail ih (hmono hgrows hlast)

theorem Halts.unique (h₁ : Halts step d s s₁) (h₂ : Halts step d s s₂) : s₁ = s₂ := by
  rcases h₁.1.total h₂.1 with h | h
  · exact (h.eq_of_none h₁.2).symm
  · exact h.eq_of_none h₂.2

/-- Going on with more data is starting with it. -/
theorem Monotone.resume (hmono : Monotone grows step) (hgrows : grows d d') (h : Halts step d s s₁) :
    Halts step d' s₁ s₂ ↔ Halts step d' s s₂ := by
  have hreached := hmono.reaches hgrows h.1
  constructor
  · exact fun h' => ⟨hreached.trans h'.1, h'.2⟩
  · rintro ⟨hreach, hnone⟩
    refine ⟨?_, hnone⟩
    rcases hreached.total hreach with h' | h'
    · exact h'
    · rw [h'.eq_of_none hnone]
      exact Reaches.refl

end Resumption
