-- SUMMARY: Storage that is pointed at from several places, and changes that leave what an address leads to alone.
import Mathlib.Data.List.Basic
import Mathlib.Logic.Relation

/-! # Shared Storage

A heap is a list of nodes, and an address a position in it that is never given again. What
an address leads to is frozen by a change when no node that is reached from it changes;
reading it then gives what it gave before. -/

namespace SharedStorage

variable {N β : Type} {pointers : N → List Nat} {heap heap' heap'' : List N} {a b c : Nat} {n : N}

section Reaching

variable (pointers)

/-- A node points at an address. -/
def Points (heap : List N) (a b : Nat) : Prop := ∃ n, heap[a]? = some n ∧ b ∈ pointers n

/-- What an address leads to. -/
def Reaches (heap : List N) : Nat → Nat → Prop := Relation.ReflTransGen (Points pointers heap)

/-- No node points past the end. -/
def Closed (heap : List N) : Prop := ∀ n ∈ heap, ∀ b ∈ pointers n, b < heap.length

/-- No node that is reached from an address is changed. -/
def Frozen (heap heap' : List N) (a : Nat) : Prop := ∀ b, Reaches pointers heap a b → heap'[b]? = heap[b]?

end Reaching

/-! ## Frozen addresses -/

theorem Reaches.lt (h : Reaches pointers heap a b) (hclosed : Closed pointers heap) (ha : a < heap.length) : b < heap.length := by
  induction h with
  | refl => exact ha
  | tail _ hpoints _ =>
    obtain ⟨n, hget, hmem⟩ := hpoints
    exact hclosed n (List.mem_of_getElem? hget) _ hmem

theorem Frozen.refl (heap : List N) (a : Nat) : Frozen pointers heap heap a := fun _ _ => rfl

theorem Frozen.reaches (h : Frozen pointers heap heap' a) (hreaches : Reaches pointers heap a b) : Reaches pointers heap' a b := by
  induction hreaches with
  | refl => exact .refl
  | @tail b c hprior hpoints ih =>
    obtain ⟨n, hget, hmem⟩ := hpoints
    exact ih.tail ⟨n, (h b hprior).trans hget, hmem⟩

/-- Nothing else is reached afterwards. -/
theorem Frozen.reaches_iff (h : Frozen pointers heap heap' a) : Reaches pointers heap' a b ↔ Reaches pointers heap a b := by
  refine ⟨fun hreaches => ?_, h.reaches⟩
  induction hreaches with
  | refl => exact .refl
  | @tail b c _ hpoints ih =>
    obtain ⟨n, hget, hmem⟩ := hpoints
    exact ih.tail ⟨n, (h b ih).symm.trans hget, hmem⟩

theorem Frozen.trans (h : Frozen pointers heap heap' a) (h' : Frozen pointers heap' heap'' a) : Frozen pointers heap heap'' a :=
  fun b hreaches => (h' b (h.reaches hreaches)).trans (h b hreaches)

/-- A node that is not reached may be overwritten. -/
theorem frozen_set (hfree : ¬ Reaches pointers heap a b) : Frozen pointers heap (heap.set b n) a := by
  intro c hreaches
  have hne : b ≠ c := by
    rintro rfl
    exact hfree hreaches
  exact List.getElem?_set_ne hne

/-- New nodes are not reached. -/
theorem frozen_append (hclosed : Closed pointers heap) (ha : a < heap.length) (more : List N) :
    Frozen pointers heap (heap ++ more) a :=
  fun _ hreaches => List.getElem?_append_left (hreaches.lt hclosed ha)

theorem not_reaches_new (hclosed : Closed pointers heap) (ha : a < heap.length) (more : List N) :
    ¬ Reaches pointers (heap ++ more) a heap.length := by
  intro hreaches
  have hlt := ((frozen_append hclosed ha more).reaches_iff.mp hreaches).lt hclosed ha
  exact absurd hlt (Nat.lt_irrefl _)

theorem Closed.set (h : Closed pointers heap) (hn : ∀ b ∈ pointers n, b < heap.length) : Closed pointers (heap.set a n) := by
  intro m hm b hb
  rw [List.length_set]
  rcases List.mem_or_eq_of_mem_set hm with hm | rfl
  · exact h m hm b hb
  · exact hn b hb

theorem Closed.append (h : Closed pointers heap) (hn : ∀ b ∈ pointers n, b < heap.length) : Closed pointers (heap ++ [n]) := by
  intro m hm b hb
  rw [List.length_append]
  rcases List.mem_append.mp hm with hm | hm
  · exact Nat.lt_add_right _ (h m hm b hb)
  · rw [List.mem_singleton.mp hm] at hb
    exact Nat.lt_add_right _ (hn b hb)

/-! ## Reading -/

/-- What is read at an address, down to a depth: of a node, from what is read at its pointers. -/
def readAt (node : (Nat → Option β) → N → Option β) (heap : List N) : (depth : Nat) → Nat → Option β
  | 0, _ => none
  | depth + 1, a => heap[a]?.bind (node (readAt node heap depth))

/-- What is read of a node depends on its pointers alone. -/
def Local (pointers : N → List Nat) (node : (Nat → Option β) → N → Option β) : Prop :=
  ∀ f g n, (∀ b ∈ pointers n, f b = g b) → node f n = node g n

theorem Frozen.readAt_eq {node : (Nat → Option β) → N → Option β} (hlocal : Local pointers node)
    (h : Frozen pointers heap heap' a) (depth : Nat) : readAt node heap' depth a = readAt node heap depth a := by
  suffices hall : ∀ depth b, Reaches pointers heap a b → readAt node heap' depth b = readAt node heap depth b from
    hall depth a .refl
  intro depth
  induction depth with
  | zero => exact fun _ _ => rfl
  | succ depth ih =>
    intro b hreaches
    rw [readAt, readAt, h b hreaches]
    cases hget : heap[b]? with
    | none => rfl
    | some n => exact hlocal _ _ n fun c hc => ih c (hreaches.tail ⟨n, hget, hc⟩)

end SharedStorage
