-- SUMMARY: The ring buffer and the deque behind channels, and the queue both of them hold.
import Mathlib.Data.List.Basic
import Mathlib.Tactic.Common

/-! # Channel Buffers

The two storage strategies of a channel. A bounded buffer is a ring of slots
with a head, a tail and a count; an unbounded buffer is a deque with a safety
cap. Both hold a queue, `contents`, oldest value first: pushing appends to it
and popping takes its head. -/

namespace Luma.Concurrency

variable {α : Type}

/-! ## The ring buffer -/

/-- A fixed number of slots, used from `head` on for `count` slots, wrapping around. -/
structure BoundedChannelBuffer (α : Type) where
  ring : List α
  capacity : Nat
  head : Nat
  tail : Nat
  count : Nat
  capacity_pos : 0 < capacity
  ring_length : ring.length = capacity
  head_lt : head < capacity
  tail_eq : tail = (head + count) % capacity
  count_le : count ≤ capacity

namespace BoundedChannelBuffer

variable {b b' : BoundedChannelBuffer α} {v : α}

def make [Inhabited α] (capacity : Nat) (h : 0 < capacity) : BoundedChannelBuffer α where
  ring := List.replicate capacity default
  capacity
  head := 0
  tail := 0
  count := 0
  capacity_pos := h
  ring_length := List.length_replicate
  head_lt := h
  tail_eq := (Nat.zero_mod capacity).symm
  count_le := Nat.zero_le capacity

def isEmpty (b : BoundedChannelBuffer α) : Bool := b.count = 0

def isFull (b : BoundedChannelBuffer α) : Bool := b.count ≥ b.capacity

/-- Store a value at the tail. A full buffer fails the assertion. -/
def push (b : BoundedChannelBuffer α) (v : α) : Option (BoundedChannelBuffer α) :=
  if hfull : b.count ≥ b.capacity then none
  else
    some
      { b with
        ring := b.ring.set b.tail v
        tail := (b.tail + 1) % b.capacity
        count := b.count + 1
        ring_length := by rw [List.length_set, b.ring_length]
        tail_eq := by rw [b.tail_eq, Nat.mod_add_mod, Nat.add_assoc]
        count_le := Nat.lt_of_not_le hfull }

/-- Take the value at the head and clear its slot. An empty buffer fails the assertion. -/
def pop [Inhabited α] (b : BoundedChannelBuffer α) : Option (α × BoundedChannelBuffer α) :=
  if hempty : b.count = 0 then none
  else
    some
      (b.ring.getD b.head default,
        { b with
          ring := b.ring.set b.head default
          head := (b.head + 1) % b.capacity
          count := b.count - 1
          ring_length := by rw [List.length_set, b.ring_length]
          head_lt := Nat.mod_lt _ b.capacity_pos
          tail_eq := by
            rw [Nat.mod_add_mod, b.tail_eq]
            congr 1
            omega
          count_le := Nat.le_trans (Nat.sub_le _ _) b.count_le })

/-- The slot `i` places after the head. -/
def slot (capacity head i : Nat) : Nat := (head + i) % capacity

variable [Inhabited α]

/-- The values in the buffer, oldest first. -/
def contents (b : BoundedChannelBuffer α) : List α :=
  (List.range b.count).map fun i => b.ring.getD (slot b.capacity b.head i) default

@[simp] theorem contents_length : b.contents.length = b.count := by simp [contents]

/-- Slots less than one round apart are different. -/
theorem slot_ne {capacity head i j : Nat} (hlt : i < j) (hround : j < i + capacity) :
    slot capacity head i ≠ slot capacity head j := by
  intro heq
  have hdvd : capacity ∣ (head + j) - (head + i) :=
    Nat.dvd_of_mod_eq_zero (Nat.sub_mod_eq_zero_of_mod_eq heq.symm)
  have hle := Nat.le_of_dvd (by omega) hdvd
  omega

/-- Writing one slot leaves the others as they are. -/
theorem getD_set_ne {ring : List α} {i j : Nat} (hne : i ≠ j) (v : α) :
    (ring.set i v).getD j default = ring.getD j default := by
  rw [List.getD_eq_getElem?_getD, List.getElem?_set_ne hne, ← List.getD_eq_getElem?_getD]

theorem push_contents (h : b.push v = some b') : b'.contents = b.contents ++ [v] ∧ b'.capacity = b.capacity := by
  unfold push at h
  split at h
  · cases h
  next hfull =>
    cases h
    refine ⟨?_, rfl⟩
    have htail : b.tail = slot b.capacity b.head b.count := b.tail_eq
    have hlt : b.tail < b.ring.length := by
      rw [htail, b.ring_length]
      exact Nat.mod_lt _ b.capacity_pos
    simp only [contents, List.range_succ, List.map_append, List.map_singleton]
    congr 1
    · apply List.map_congr_left
      intro i hi
      rw [List.mem_range] at hi
      exact getD_set_ne (htail ▸ (slot_ne hi (by omega)).symm) v
    · rw [← htail, List.getD_eq_getElem?_getD, List.getElem?_set_self hlt]
      rfl

theorem pop_contents (h : b.pop = some (v, b')) : b.contents = v :: b'.contents ∧ b'.capacity = b.capacity := by
  unfold pop at h
  split at h
  · cases h
  next hempty =>
    cases h
    refine ⟨?_, rfl⟩
    obtain ⟨n, hn⟩ : ∃ n, b.count = n + 1 := ⟨b.count - 1, by omega⟩
    have hcount := b.count_le
    have hhead : slot b.capacity b.head 0 = b.head := Nat.mod_eq_of_lt b.head_lt
    simp only [contents, hn, Nat.add_sub_cancel, List.range_succ_eq_map, List.map_cons, hhead, List.map_map]
    congr 1
    apply List.map_congr_left
    intro i hi
    rw [List.mem_range] at hi
    have hnext : slot b.capacity ((b.head + 1) % b.capacity) i = slot b.capacity b.head (i + 1) := by
      rw [slot, slot, Nat.mod_add_mod, Nat.add_assoc, Nat.add_comm 1]
    have hne : b.head ≠ slot b.capacity b.head (i + 1) := by
      nth_rewrite 1 [← hhead]
      exact slot_ne (by omega) (by omega)
    rw [hnext, getD_set_ne hne]
    rfl

end BoundedChannelBuffer

/-! ## Both strategies -/

/-- The storage of a channel. -/
inductive ChannelBuffer (α : Type) where
  | bounded (buffer : BoundedChannelBuffer α)
  | unbounded (deque : List α)

/-- Capacity zero asks for an unbounded buffer. -/
def makeChannelBuffer [Inhabited α] (capacity : Nat) : ChannelBuffer α :=
  if h : 0 < capacity then .bounded (.make capacity h) else .unbounded []

namespace ChannelBuffer

variable {maxQueueSize : Nat} {b b' : ChannelBuffer α} {v : α}

def isBounded : ChannelBuffer α → Bool
  | .bounded _ => true
  | .unbounded _ => false

def isEmpty : ChannelBuffer α → Bool
  | .bounded b => b.isEmpty
  | .unbounded deque => deque.isEmpty

def isFull (maxQueueSize : Nat) : ChannelBuffer α → Bool
  | .bounded b => b.isFull
  | .unbounded deque => deque.length ≥ maxQueueSize

def push (maxQueueSize : Nat) (v : α) : ChannelBuffer α → Option (ChannelBuffer α)
  | .bounded b => (b.push v).map .bounded
  | .unbounded deque => if deque.length ≥ maxQueueSize then none else some (.unbounded (deque ++ [v]))

def pop [Inhabited α] : ChannelBuffer α → Option (α × ChannelBuffer α)
  | .bounded b => b.pop.map fun (v, b) => (v, .bounded b)
  | .unbounded [] => none
  | .unbounded (v :: deque) => some (v, .unbounded deque)

/-- The queue in the buffer, oldest value first. -/
def contents [Inhabited α] : ChannelBuffer α → List α
  | .bounded b => b.contents
  | .unbounded deque => deque

/-- The most values the buffer may hold. -/
def capacity (maxQueueSize : Nat) : ChannelBuffer α → Nat
  | .bounded b => b.capacity
  | .unbounded _ => maxQueueSize

variable [Inhabited α]

@[simp] theorem isEmpty_iff : b.isEmpty = true ↔ b.contents = [] := by
  cases b with
  | bounded b => simp [isEmpty, contents, BoundedChannelBuffer.isEmpty, ← List.length_eq_zero_iff]
  | unbounded deque => simp [isEmpty, contents]

@[simp] theorem isFull_iff : b.isFull maxQueueSize = true ↔ b.capacity maxQueueSize ≤ b.contents.length := by
  cases b with
  | bounded b => simp [isFull, contents, capacity, BoundedChannelBuffer.isFull]
  | unbounded deque => simp [isFull, contents, capacity]

/-- Pushing appends to the queue. -/
theorem push_spec (h : b.push maxQueueSize v = some b') : b'.contents = b.contents ++ [v] ∧
    b'.capacity maxQueueSize = b.capacity maxQueueSize ∧ b'.isBounded = b.isBounded ∧
      b.contents.length < b.capacity maxQueueSize := by
  cases b with
  | bounded b =>
    obtain ⟨r, hr, rfl⟩ := Option.map_eq_some_iff.mp h
    obtain ⟨hcontents, hcapacity⟩ := BoundedChannelBuffer.push_contents hr
    refine ⟨hcontents, hcapacity, rfl, ?_⟩
    have hcount := r.count_le
    rw [← BoundedChannelBuffer.contents_length, hcontents, hcapacity, List.length_append] at hcount
    exact hcount
  | unbounded deque =>
    simp only [push] at h
    split at h
    · cases h
    next hroom =>
      cases h
      exact ⟨rfl, rfl, rfl, Nat.lt_of_not_le hroom⟩

omit [Inhabited α] in
/-- A buffer that is not full takes a value. -/
theorem push_isSome (h : b.isFull maxQueueSize = false) (v : α) : ∃ b', b.push maxQueueSize v = some b' := by
  cases b with
  | bounded b =>
    have hroom : ¬ b.count ≥ b.capacity := by simpa [isFull, BoundedChannelBuffer.isFull] using h
    simp [push, BoundedChannelBuffer.push, hroom]
  | unbounded deque =>
    have hroom : ¬ deque.length ≥ maxQueueSize := by simpa [isFull] using h
    simp [push, hroom]

/-- Popping takes the head of the queue. -/
theorem pop_spec (h : b.pop = some (v, b')) : b.contents = v :: b'.contents ∧
    b'.capacity maxQueueSize = b.capacity maxQueueSize ∧ b'.isBounded = b.isBounded := by
  cases b with
  | bounded b =>
    obtain ⟨⟨w, r⟩, hr, heq⟩ := Option.map_eq_some_iff.mp h
    cases heq
    obtain ⟨hcontents, hcapacity⟩ := BoundedChannelBuffer.pop_contents hr
    exact ⟨hcontents, hcapacity, rfl⟩
  | unbounded deque =>
    cases deque with
    | nil => cases h
    | cons w deque =>
      cases h
      exact ⟨rfl, rfl, rfl⟩

/-- A buffer that is not empty gives a value. -/
theorem pop_isSome (h : b.isEmpty = false) : ∃ v b', b.pop = some (v, b') := by
  cases b with
  | bounded b =>
    have hcount : ¬ b.count = 0 := by simpa [isEmpty, BoundedChannelBuffer.isEmpty] using h
    simp [pop, BoundedChannelBuffer.pop, hcount]
  | unbounded deque =>
    cases deque with
    | nil => cases h
    | cons v deque => exact ⟨v, .unbounded deque, rfl⟩

theorem makeChannelBuffer_contents {capacity : Nat} : (makeChannelBuffer capacity : ChannelBuffer α).contents = [] := by
  unfold makeChannelBuffer
  split <;> rfl

end ChannelBuffer

end Luma.Concurrency
