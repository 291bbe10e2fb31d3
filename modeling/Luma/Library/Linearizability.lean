-- SUMMARY: Histories of concurrent calls, and the sequential order of their effects.
import Mathlib.Data.List.Nodup
import Mathlib.Tactic.Common

/-! # Linearizability

A history records when each call was invoked and when it returned. A log orders
the effects of the calls one after the other. The log linearizes the history
when a sequential object allows it, each call takes effect once between its
invocation and its return, and a call that returned before another was invoked
took effect before it. -/

namespace Linearizability

/-- What an observer of the calls sees. -/
inductive Event (ι Op Res : Type) where
  | invoked (id : ι) (op : Op)
  | returned (id : ι) (res : Res)

/-- The effect of one call: who called, what, and with which result. -/
structure Effect (ι Op Res : Type) where
  id : ι
  op : Op
  res : Res

variable {ι Op Res : Type}

/-- The log is a sequential explanation of the history. -/
structure Linearizes (Legal : List (Effect ι Op Res) → Prop) (history : List (Event ι Op Res))
    (log : List (Effect ι Op Res)) : Prop where
  legal : Legal log
  /-- No call takes effect twice. -/
  once : (log.map Effect.id).Nodup
  /-- A call takes effect after it was invoked. -/
  invoked : ∀ e ∈ log, .invoked e.id e.op ∈ history
  /-- A call takes effect before it returns, and returns what its effect says. -/
  returned : ∀ id res, .returned id res ∈ history → ∃ e ∈ log, e.id = id ∧ e.res = res
  /-- Calls that do not overlap take effect in their order. -/
  realTime : ∀ a res b op, [.returned a res, .invoked b op].Sublist history →
    b ∈ log.map Effect.id → [a, b].Sublist (log.map Effect.id)

variable {Legal : List (Effect ι Op Res) → Prop} {history : List (Event ι Op Res)}
  {log : List (Effect ι Op Res)} {id : ι} {op : Op} {res : Res}

/-- A pair in a list with a new last element ends in it or was there before. -/
theorem pair_sublist_concat {α : Type} {p q x : α} {l : List α} :
    [p, q].Sublist (l ++ [x]) ↔ [p, q].Sublist l ∨ p ∈ l ∧ q = x := by
  constructor
  · intro h
    obtain ⟨l₁, l₂, heq, h₁, h₂⟩ := List.sublist_append_iff.mp h
    rcases List.sublist_singleton.mp h₂ with rfl | rfl
    · rw [List.append_nil] at heq
      exact Or.inl (heq ▸ h₁)
    · obtain ⟨rfl, rfl⟩ : l₁ = [p] ∧ x = q := by
        cases l₁ with
        | nil => simp at heq
        | cons y l₁ => cases l₁ <;> simp_all
      exact Or.inr ⟨List.singleton_sublist.mp h₁, rfl⟩
  · rintro (h | ⟨hmem, rfl⟩)
    · exact h.trans (List.sublist_append_left _ _)
    · exact (List.singleton_sublist.mpr hmem).append (List.Sublist.refl [q])

theorem Linearizes.nil (h : Legal []) : Linearizes Legal [] [] where
  legal := h
  once := List.nodup_nil
  invoked _ h := nomatch h
  returned _ _ h := nomatch h
  realTime _ _ _ _ _ h := nomatch h

/-- A new call has no effect yet. -/
theorem Linearizes.invoke (h : Linearizes Legal history log) (hnew : id ∉ log.map Effect.id) :
    Linearizes Legal (history ++ [.invoked id op]) log where
  legal := h.legal
  once := h.once
  invoked e he := List.mem_append_left _ (h.invoked e he)
  returned i r hr := by
    refine h.returned i r ((List.mem_append.mp hr).resolve_right ?_)
    simp
  realTime a r b o hsub hb := by
    rcases pair_sublist_concat.mp hsub with hold | ⟨-, hlast⟩
    · exact h.realTime a r b o hold hb
    · cases hlast
      exact absurd hb hnew

/-- A call in progress takes effect, after everything that has returned. -/
theorem Linearizes.decide (h : Linearizes Legal history log) (hinvoked : .invoked id op ∈ history)
    (hnew : id ∉ log.map Effect.id) (hlegal : Legal (log ++ [⟨id, op, res⟩])) :
    Linearizes Legal history (log ++ [⟨id, op, res⟩]) where
  legal := hlegal
  once := by
    rw [List.map_append, List.map_singleton]
    exact h.once.append (List.nodup_singleton _) (by simpa using hnew)
  invoked e he := by
    rcases List.mem_append.mp he with hold | hlast
    · exact h.invoked e hold
    · obtain rfl := List.mem_singleton.mp hlast
      exact hinvoked
  returned i r hr := by
    obtain ⟨e, he, heq⟩ := h.returned i r hr
    exact ⟨e, List.mem_append_left _ he, heq⟩
  realTime a r b o hsub hb := by
    rw [List.map_append, List.map_singleton] at hb ⊢
    rw [pair_sublist_concat]
    rcases List.mem_append.mp hb with hold | hlast
    · exact Or.inl (h.realTime a r b o hsub hold)
    · -- The call that returned has its effect in the log already.
      obtain ⟨e, he, rfl, -⟩ := h.returned a r (hsub.subset List.mem_cons_self)
      exact Or.inr ⟨List.mem_map_of_mem he, List.mem_singleton.mp hlast⟩

/-- A call returns what its effect says. -/
theorem Linearizes.respond (h : Linearizes Legal history log) (heffect : ∃ e ∈ log, e.id = id ∧ e.res = res) :
    Linearizes Legal (history ++ [.returned id res]) log where
  legal := h.legal
  once := h.once
  invoked e he := List.mem_append_left _ (h.invoked e he)
  returned i r hr := by
    rcases List.mem_append.mp hr with hold | hlast
    · exact h.returned i r hold
    · cases List.mem_singleton.mp hlast
      exact heffect
  realTime a r b o hsub hb := by
    rcases pair_sublist_concat.mp hsub with hold | ⟨-, hlast⟩
    · exact h.realTime a r b o hold hb
    · cases hlast

end Linearizability
