-- SUMMARY: Deciding a greatest fixpoint with a set of questions under way.
import Mathlib.Logic.Relation
import Mathlib.Data.List.Basic

/-! # Coinduction by Questions Under Way

A question holds if a set of questions that support each other contains it. A procedure
decides it by asking further questions, and takes for granted a question whose key is the key
of one under way. It is right where a question does not lead to another one with its key. -/

namespace Coinduction

variable {Q K : Type} [DecidableEq K]

/-- Every question of the set is supported by questions of the set. -/
def Consistent (step : (Q → Prop) → Q → Prop) (R : Q → Prop) : Prop := ∀ q, R q → step R q

/-- The greatest fixpoint of a step. -/
def Holds (step : (Q → Prop) → Q → Prop) (q : Q) : Prop := ∃ R, Consistent step R ∧ R q

/-- A step that needs of a set only the questions it asks, and more of them are no less support. -/
def AsksOnly (step : (Q → Prop) → Q → Prop) (asks : Q → Q → Prop) : Prop :=
  ∀ R R' q, (∀ q', asks q q' → R q' → R' q') → step R q → step R' q

/-- No question leads to another one with its key. -/
def Regular (asks : Q → Q → Prop) (key : Q → K) (q : Q) : Prop :=
  ∀ p p', Relation.ReflTransGen asks q p → Relation.TransGen asks p p' → key p' = key p → p' = p

variable {step : (Q → Prop) → Q → Prop} {asks : Q → Q → Prop} {key : Q → K}

theorem AsksOnly.mono (hasks : AsksOnly step asks) {R R' : Q → Prop} (h : ∀ q, R q → R' q) {q : Q}
    (hstep : step R q) : step R' q :=
  hasks R R' q (fun q' _ => h q') hstep

/-- What holds is supported by what holds. -/
theorem Holds.supported (hasks : AsksOnly step asks) {q : Q} (h : Holds step q) : step (Holds step) q := by
  obtain ⟨R, hconsistent, hq⟩ := h
  exact hasks.mono (fun q' hq' => ⟨R, hconsistent, hq'⟩) (hconsistent q hq)

/-- Only so many keys can be under way for a step. -/
structure Descent (step : (Q → Prop) → Q → Prop) (key : Q → K) (D : Q → Prop) where
  measure : List K → Nat
  descends : ∀ {P q}, D q → key q ∉ P → step (fun _ => True) q → measure (key q :: P) < measure P

/-- What a procedure with keys under way accepts is under way, or supported by what it accepts
    with one key more. -/
def Unfolds (step : (Q → Prop) → Q → Prop) (key : Q → K) (D : Q → Prop) (accepts : List K → Q → Prop) : Prop :=
  ∀ P q, D q → accepts P q → key q ∈ P ∨ step (accepts (key q :: P)) q

/-- A procedure with keys under way accepts what is under way, and what is supported by what it
    accepts with one key more. -/
def Folds (step : (Q → Prop) → Q → Prop) (key : Q → K) (D : Q → Prop) (accepts : List K → Q → Prop) : Prop :=
  ∀ P q, D q → (key q ∈ P ∨ step (accepts (key q :: P)) q) → step (fun _ => True) q → accepts P q

variable {D : Q → Prop} {accepts : List K → Q → Prop}

/-- Supported by itself and by the questions of a chain. -/
def SupportedBy (step : (Q → Prop) → Q → Prop) (chain : List Q) (q : Q) : Prop :=
  ∃ R : Q → Prop, (∀ p, R p → step (fun p' => R p' ∨ p' ∈ chain) p) ∧ R q

theorem Descent.supported (hdescent : Descent step key D) (hunfolds : Unfolds step key D accepts) (hasks : AsksOnly step asks)
    (hclosed : ∀ q q', D q → asks q q' → D q') {root : Q} (hregular : Regular asks key root) :
    ∀ (chain : List Q) (q : Q), D q → Relation.ReflTransGen asks root q →
      (∀ p ∈ chain, Relation.ReflTransGen asks root p ∧ Relation.TransGen asks p q) →
      accepts (chain.map key) q → q ∈ chain ∨ SupportedBy step chain q := by
  intro chain q
  induction hn : hdescent.measure (chain.map key) using Nat.strongRecOn generalizing chain q with
  | ind n ih =>
    intro hq hroot hchain haccepts
    by_cases hmem : key q ∈ chain.map key
    · -- the question under way with the key is the question itself
      left
      obtain ⟨p, hp, hkey⟩ := List.mem_map.mp hmem
      obtain ⟨hrootp, hpq⟩ := hchain p hp
      rw [hregular p q hrootp hpq hkey.symm]
      exact hp
    · right
      have hstep := (hunfolds _ _ hq haccepts).resolve_left hmem
      have hlt := hdescent.descends hq hmem (hasks.mono (fun _ _ => trivial) hstep)
      refine ⟨fun p => p = q ∨ SupportedBy step (q :: chain) p, ?_, .inl rfl⟩
      have hwider {R : Q → Prop} (hR : ∀ p, R p → step (fun p' => R p' ∨ p' ∈ q :: chain) p) {p : Q}
          (hp : R p) : step (fun p' => (p' = q ∨ SupportedBy step (q :: chain) p') ∨ p' ∈ chain) p := by
        refine hasks.mono (fun p' hp' => ?_) (hR p hp)
        rcases hp' with hp' | hp'
        · exact .inl (.inr ⟨R, hR, hp'⟩)
        · rcases List.mem_cons.mp hp' with rfl | hp'
          · exact .inl (.inl rfl)
          · exact .inr hp'
      rintro p (rfl | ⟨R, hR, hp⟩)
      · refine hasks _ _ _ (fun q' hq' haccepts' => ?_) hstep
        have hrest := ih (hdescent.measure ((p :: chain).map key)) (hn ▸ hlt) (p :: chain) q' rfl
          (hclosed p q' hq hq') (hroot.tail hq') ?_ haccepts'
        · rcases hrest with hmem | hsupported
          · rcases List.mem_cons.mp hmem with rfl | hmem
            · exact .inl (.inl rfl)
            · exact .inr hmem
          · exact .inl (.inr hsupported)
        · intro r hr
          rcases List.mem_cons.mp hr with rfl | hr
          · exact ⟨hroot, .single hq'⟩
          · exact ⟨(hchain r hr).1, (hchain r hr).2.tail hq'⟩
      · exact hwider hR hp

/-- What the procedure accepts with nothing under way holds, if no question that comes up leads to
    another one with its key. -/
theorem Descent.sound (hdescent : Descent step key D) (hunfolds : Unfolds step key D accepts)
    (hasks : AsksOnly step asks) (hclosed : ∀ q q', D q → asks q q' → D q') {q : Q} (hregular : Regular asks key q) (hq : D q)
    (haccepts : accepts [] q) : Holds step q := by
  rcases hdescent.supported hunfolds hasks hclosed hregular [] q hq .refl (by simp) haccepts with hmem | ⟨R, hR, hRq⟩
  · cases hmem
  · refine ⟨R, fun p hp => hasks.mono (fun p' hp' => ?_) (hR p hp), hRq⟩
    rcases hp' with hp' | hp'
    · exact hp'
    · cases hp'

/-- What holds is accepted, whatever is under way. -/
theorem Descent.complete (hdescent : Descent step key D) (hfolds : Folds step key D accepts)
    (hasks : AsksOnly step asks) (hclosed : ∀ q q', D q → asks q q' → D q') :
    ∀ (P : List K) (q : Q), D q → Holds step q → accepts P q := by
  intro P q
  induction hn : hdescent.measure P using Nat.strongRecOn generalizing P q with
  | ind n ih =>
    intro hq hholds
    have hstep := hholds.supported hasks
    have hvisible : step (fun _ => True) q := hasks.mono (fun _ _ => trivial) hstep
    by_cases hmem : key q ∈ P
    · exact hfolds _ _ hq (.inl hmem) hvisible
    · refine hfolds _ _ hq (.inr ?_) hvisible
      refine hasks _ _ _ (fun q' hq' hholds' => ?_) hstep
      exact ih _ (hn ▸ hdescent.descends hq hmem hvisible) (key q :: P) q' rfl (hclosed q q' hq hq') hholds'

end Coinduction
