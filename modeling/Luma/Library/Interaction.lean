-- SUMMARY: Programs that ask questions while they compute, and may end with an exception.
import Mathlib.Tactic.Common

/-! # Interactions

A program that asks questions of type `Q`, is given answers of type `A`, and ends with
a value or with an exception in `ε`. Every answer is possible, so that a program may end
in many ways. -/

inductive Interaction (Q A ε α : Type) where
  | done (result : Except ε α)
  | ask (question : Q) (next : A → Interaction Q A ε α)

namespace Interaction

variable {Q A ε α β σ : Type}

/-! ## Programs -/

def pure (a : α) : Interaction Q A ε α := done (.ok a)

def bind (p : Interaction Q A ε α) (f : α → Interaction Q A ε β) : Interaction Q A ε β :=
  match p with
  | done (.ok a) => f a
  | done (.error e) => done (.error e)
  | ask question next => ask question fun answer => (next answer).bind f

instance : Monad (Interaction Q A ε) where
  pure := pure
  bind := bind

def throw (e : ε) : Interaction Q A ε α := done (.error e)

/-- Handle the exceptions of a program. -/
def catching (handler : ε → Interaction Q A ε α) : Interaction Q A ε α → Interaction Q A ε α
  | done (.ok a) => done (.ok a)
  | done (.error e) => handler e
  | ask question next => ask question fun answer => (next answer).catching handler

/-- A loop over elements with a state. -/
def fold (f : σ → β → Interaction Q A ε σ) : σ → List β → Interaction Q A ε σ
  | state, [] => pure state
  | state, x :: xs => (f state x).bind fun state => fold f state xs

/-! ## Ends -/

/-- Some answers make the program end so. -/
inductive Ends : Interaction Q A ε α → Except ε α → Prop where
  | done {result : Except ε α} : Ends (done result) result
  | ask {question : Q} {next : A → Interaction Q A ε α} {answer : A} {result : Except ε α}
      (h : Ends (next answer) result) : Ends (ask question next) result

theorem Ends.of_catching {p : Interaction Q A ε α} {handler : ε → Interaction Q A ε α}
    {result : Except ε α} (h : Ends (p.catching handler) result) :
    (∃ a, result = .ok a ∧ Ends p result) ∨ ∃ e, Ends p (.error e) ∧ Ends (handler e) result := by
  induction p with
  | done end_ =>
    cases end_ with
    | ok a =>
      cases h
      exact .inl ⟨a, rfl, .done⟩
    | error e => exact .inr ⟨e, .done, h⟩
  | ask question next ih =>
    cases h with
    | ask h =>
      obtain ⟨a, hok, hp⟩ | ⟨e, hp, hhandler⟩ := ih _ h
      · exact .inl ⟨a, hok, .ask hp⟩
      · exact .inr ⟨e, .ask hp, hhandler⟩

theorem Ends.of_bind {p : Interaction Q A ε α} {f : α → Interaction Q A ε β} {result : Except ε β}
    (h : Ends (p.bind f) result) :
    (∃ a, Ends p (.ok a) ∧ Ends (f a) result) ∨ ∃ e, Ends p (.error e) ∧ result = .error e := by
  induction p with
  | done end_ =>
    cases end_ with
    | ok a => exact .inl ⟨a, .done, h⟩
    | error e =>
      cases h
      exact .inr ⟨e, .done, rfl⟩
  | ask question next ih =>
    cases h with
    | ask h =>
      obtain ⟨a, hp, hf⟩ | ⟨e, hp, herror⟩ := ih _ h
      · exact .inl ⟨a, .ask hp, hf⟩
      · exact .inr ⟨e, .ask hp, herror⟩

/-! ## Exceptions in answers -/

/-- Whatever else it is told, the program ends with an exception in `F`. -/
def Fails (F : ε → Prop) (p : Interaction Q A ε α) : Prop :=
  ∀ result, Ends p result → ∃ e, F e ∧ result = .error e

theorem Fails.next {F : ε → Prop} {question : Q} {next : A → Interaction Q A ε α}
    (h : Fails F (ask question next)) (answer : A) : Fails F (next answer) :=
  fun result hends => h result (.ask hends)

theorem Fails.bind {F : ε → Prop} {p : Interaction Q A ε α} (f : α → Interaction Q A ε β)
    (h : Fails F p) : Fails F (p.bind f) := by
  intro result hends
  obtain ⟨a, hp, -⟩ | ⟨e, hp, rfl⟩ := hends.of_bind
  · obtain ⟨e, -, hok⟩ := h _ hp
    cases hok
  · obtain ⟨e', hF, herror⟩ := h _ hp
    cases herror
    exact ⟨e, hF, rfl⟩

/-- After an answer in `B` nothing but an exception in `F` is to be had from the program. -/
inductive Relays (B : A → Prop) (F : ε → Prop) : Interaction Q A ε α → Prop where
  | done {result : Except ε α} : Relays B F (done result)
  | ask {question : Q} {next : A → Interaction Q A ε α} (hbad : ∀ answer, B answer → Fails F (next answer))
      (hnext : ∀ answer, ¬ B answer → Relays B F (next answer)) : Relays B F (ask question next)

variable {B : A → Prop} {F : ε → Prop}

theorem Relays.bind {p : Interaction Q A ε α} {f : α → Interaction Q A ε β} (h : Relays B F p)
    (hf : ∀ a, Relays B F (f a)) : Relays B F (p.bind f) := by
  induction h with
  | @done result =>
    cases result with
    | ok a => exact hf a
    | error e => exact .done
  | ask hbad _ ih => exact .ask (fun answer hB => (hbad answer hB).bind f) ih

theorem Relays.fold {f : σ → β → Interaction Q A ε σ} (hf : ∀ state x, Relays B F (f state x))
    (xs : List β) : ∀ state, Relays B F (fold f state xs) := by
  induction xs with
  | nil => exact fun _ => .done
  | cons x xs ih => exact fun state => (hf state x).bind ih

end Interaction
