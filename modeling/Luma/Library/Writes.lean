-- SUMMARY: Writing values at positions of a list.
import Mathlib.Data.List.Nodup

/-! # Writes

A list of writes is carried out in order. When no position is written twice, each
value written is there in the end, and every other position is as it was. -/

variable {α β : Type*}

/-- Write values at positions. A position outside the list is passed over. -/
def writeAll (writes : List (Nat × α)) (l : List α) : List α :=
  writes.foldl (fun l w => l.set w.1 w.2) l

@[simp] theorem writeAll_nil {l : List α} : writeAll [] l = l := rfl

@[simp] theorem writeAll_cons {w : Nat × α} {writes : List (Nat × α)} {l : List α} :
    writeAll (w :: writes) l = writeAll writes (l.set w.1 w.2) := rfl

theorem writeAll_append {writes more : List (Nat × α)} {l : List α} :
    writeAll (writes ++ more) l = writeAll more (writeAll writes l) := List.foldl_append

@[simp] theorem length_writeAll {writes : List (Nat × α)} {l : List α} :
    (writeAll writes l).length = l.length := by
  induction writes generalizing l with
  | nil => rfl
  | cons w writes ih => rw [writeAll_cons, ih, List.length_set]

theorem getElem?_writeAll_of_notMem {writes : List (Nat × α)} {l : List α} {i : Nat}
    (h : i ∉ writes.map Prod.fst) : (writeAll writes l)[i]? = l[i]? := by
  induction writes generalizing l with
  | nil => rfl
  | cons w writes ih =>
    rw [List.map_cons, List.mem_cons, not_or] at h
    rw [writeAll_cons, ih h.2, List.getElem?_set_ne (Ne.symm h.1)]

theorem getElem?_writeAll_of_mem {writes : List (Nat × α)} {l : List α} {i : Nat} {v : α}
    (hnodup : (writes.map Prod.fst).Nodup) (hmem : (i, v) ∈ writes) (hi : i < l.length) :
    (writeAll writes l)[i]? = some v := by
  induction writes generalizing l with
  | nil => exact absurd hmem List.not_mem_nil
  | cons w writes ih =>
    rw [List.map_cons, List.nodup_cons] at hnodup
    rw [writeAll_cons]
    rcases List.mem_cons.mp hmem with rfl | hmem
    · rw [getElem?_writeAll_of_notMem hnodup.1]
      exact List.getElem?_set_self hi
    · exact ih hnodup.2 hmem (by rwa [List.length_set])

/-- A written position holds a written value. -/
theorem getElem?_writeAll_mem {writes : List (Nat × α)} {l : List α} {i : Nat}
    (h : i ∈ writes.map Prod.fst) (hi : i < l.length) :
    ∃ v, (i, v) ∈ writes ∧ (writeAll writes l)[i]? = some v := by
  induction writes generalizing l with
  | nil => exact absurd h List.not_mem_nil
  | cons w writes ih =>
    by_cases hlater : i ∈ writes.map Prod.fst
    · obtain ⟨v, hmem, hv⟩ := ih (l := l.set w.1 w.2) hlater (by rwa [List.length_set])
      exact ⟨v, List.mem_cons_of_mem _ hmem, hv⟩
    · have hw : i = w.1 := (List.mem_cons.mp h).resolve_right hlater
      subst hw
      refine ⟨w.2, List.mem_cons_self, ?_⟩
      rw [writeAll_cons, getElem?_writeAll_of_notMem hlater]
      exact List.getElem?_set_self hi

theorem map_writeAll {f : α → β} {writes : List (Nat × α)} {l : List α} :
    (writeAll writes l).map f = writeAll (writes.map fun w => (w.1, f w.2)) (l.map f) := by
  induction writes generalizing l with
  | nil => rfl
  | cons w writes ih => rw [writeAll_cons, ih, List.map_set, List.map_cons, writeAll_cons]

/-- Values written at the front of a list replace it. -/
theorem writeAll_zipIdx {xs l : List α} (h : xs.length ≤ l.length) :
    writeAll (xs.zipIdx.map Prod.swap) l = xs ++ l.drop xs.length := by
  have hfst : (xs.zipIdx.map Prod.swap).map Prod.fst = List.range xs.length := by
    rw [List.map_map, List.range_eq_range']
    exact List.zipIdx_map_snd 0 xs
  refine List.ext_getElem? fun i => ?_
  by_cases hi : i < xs.length
  · have hmem : (i, xs[i]) ∈ xs.zipIdx.map Prod.swap :=
      List.mem_map.mpr ⟨(xs[i], i), List.mk_mem_zipIdx_iff_getElem?.mpr (List.getElem?_eq_getElem hi), rfl⟩
    rw [getElem?_writeAll_of_mem (hfst ▸ List.nodup_range) hmem (Nat.lt_of_lt_of_le hi h),
      List.getElem?_append_left hi, List.getElem?_eq_getElem hi]
  · rw [getElem?_writeAll_of_notMem (by rw [hfst, List.mem_range]; exact hi),
      List.getElem?_append_right (Nat.not_lt.mp hi), List.getElem?_drop,
      Nat.add_sub_of_le (Nat.not_lt.mp hi)]
