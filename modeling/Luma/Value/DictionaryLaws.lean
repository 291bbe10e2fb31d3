-- SUMMARY: Dictionaries keep distinct keys and behave as ordered maps.
import Luma.Value.Dictionary

/-! # Dictionaries Are Ordered Maps

A dictionary is valid when its keys are distinct and its index, if current, maps
each key to its position. On valid dictionaries every operation has the effect of
the ordered map operation on the entries, whichever path it takes, and leaves a
valid dictionary. -/

namespace Luma

open Codec OrderedMap

variable {V : Type}

namespace DictionaryValue

/-- Distinct keys, and an index that is stale or knows the position of every key. -/
structure Valid (dict : DictionaryValue V) : Prop where
  nodup : (keys dict.entries).Nodup
  index : dict.index.isBuilt = true →
    ∀ key, dict.index.index.find key = position key dict.entries

end DictionaryValue

/-! ## The index -/

theorem IndexMap.find_emplace {index : IndexMap} {key other : Bytes} {i : Nat} :
    (index.emplace key i).find other = (index.find other).or (if key = other then some i else none) := by
  rw [IndexMap.emplace]
  cases hfind : index.find key with
  | some j =>
    by_cases hkey : key = other
    · rw [← hkey, if_pos rfl]
      simp [hfind]
    · simp [hkey]
  | none =>
    rw [IndexMap.find, OrderedMap.lookup_append]
    rfl

/-- Building adds the first position of every key that has none yet. -/
theorem EntryIndex.find_buildFrom {start : Nat} {entries : List (Bytes × V)} {index : IndexMap}
    {key : Bytes} : (EntryIndex.buildFrom start entries index).find key =
      (index.find key).or ((position key entries).map (· + start)) := by
  induction entries generalizing start index with
  | nil => simp [EntryIndex.buildFrom, position]
  | cons entry entries ih =>
    rw [EntryIndex.buildFrom, ih, IndexMap.find_emplace, position, Option.or_assoc]
    congr 1
    by_cases hkey : entry.1 = key
    · simp [hkey]
    · rw [if_neg hkey, if_neg hkey, Option.none_or, Option.map_map]
      congr 1
      funext i
      simp only [Function.comp_apply]
      omega

theorem EntryIndex.find_build {entries : List (Bytes × V)} {key : Bytes} :
    (EntryIndex.build entries []).find key = position key entries := by
  rw [EntryIndex.build, EntryIndex.find_buildFrom]
  simp [IndexMap.find, OrderedMap.lookup]

namespace DictionaryValue

variable {dict : DictionaryValue V} {key : Bytes} {value : V}

/-- A dictionary with distinct keys and no index is valid. -/
theorem valid_of_stale {entries : List (Bytes × V)} (hnodup : (keys entries).Nodup) :
    Valid { entries := entries } where
  nodup := hnodup
  index := Bool.false_ne_true.elim

/-- Building the index anew makes any dictionary with distinct keys valid. -/
theorem rebuildIndex_valid (hnodup : (keys dict.entries).Nodup) : dict.rebuildIndex.Valid where
  nodup := hnodup
  index _ _ := EntryIndex.find_build

/-! ## Operations -/

@[simp] theorem find_entries : (dict.find key).2.entries = dict.entries := rfl

theorem find_fst (hvalid : dict.Valid) : (dict.find key).1 = position key dict.entries := by
  simp only [find, EntryIndex.find, LazyHashIndex.find, LazyHashIndex.ensureBuilt]
  split
  · rfl
  · split
    · next hbuilt => exact hvalid.index hbuilt key
    · exact EntryIndex.find_build

theorem find_valid (hvalid : dict.Valid) : (dict.find key).2.Valid where
  nodup := hvalid.nodup
  index := by
    simp only [find, EntryIndex.find, LazyHashIndex.find, LazyHashIndex.ensureBuilt]
    split
    · exact hvalid.index
    · split
      · exact hvalid.index
      · exact fun _ _ => EntryIndex.find_build

theorem get_fst (hvalid : dict.Valid) : (dict.get key).1 = lookup key dict.entries := by
  rw [lookup_eq_position, ← find_fst hvalid]
  rfl

/-- Writing a value at a position keeps the keys where they are. -/
theorem keys_modify {entries : List (Bytes × V)} {i : Nat} :
    keys (entries.modify i fun entry => (entry.1, value)) = keys entries := by
  refine List.ext_getElem? fun j => ?_
  rw [List.getElem?_map, List.getElem?_map, List.getElem?_modify]
  cases entries[j]? with
  | none => rfl
  | some entry => by_cases hij : i = j <;> simp [hij]

theorem assign_valid (hvalid : dict.Valid) {i : Nat} : (dict.assign i value).Valid where
  nodup := by
    rw [assign, keys_modify]
    exact hvalid.nodup
  index hbuilt other := by
    rw [assign, position_congr keys_modify]
    exact hvalid.index hbuilt other

theorem assign_entries {i : Nat} (hpos : position key dict.entries = some i) :
    (dict.assign i value).entries = insert key value dict.entries :=
  (insert_of_position hpos).symm

/-- Both ways of setting a key do what inserting it into the entries does. -/
theorem set_spec (hvalid : dict.Valid) (key : Bytes) (value : V) : ∃ dict', dict.set key value = .ok dict' ∧
    dict'.entries = insert key value dict.entries ∧ dict'.Valid := by
  have hnodup : (keys (insert key value dict.entries)).Nodup := nodup_insert hvalid.nodup
  cases hbuilt : dict.index.isBuilt with
  | false =>
    refine ⟨{ entries := insert key value dict.entries, index := dict.index }, ?_, rfl, hnodup, ?_⟩
    · simp [set, EntryIndex.set, hbuilt, bind, Except.bind, pure, Except.pure]
    · intro htrue
      exact absurd (hbuilt.symm.trans htrue) Bool.false_ne_true
  | true =>
    have hfind := hvalid.index hbuilt key
    cases hpos : position key dict.entries with
    | some i =>
      refine ⟨dict.assign i value, ?_, assign_entries hpos, assign_valid hvalid⟩
      simp [set, EntryIndex.set, hbuilt, hfind, hpos, bind, Except.bind, pure, Except.pure, assign]
    | none =>
      have hnew : insert key value dict.entries = dict.entries ++ [(key, value)] :=
        insert_of_notMem (position_eq_none.mp hpos)
      refine ⟨{ entries := dict.entries ++ [(key, value)],
                index := { dict.index with
                  index := dict.index.index.emplace key dict.entries.length } },
        ?_, hnew.symm, hnew ▸ hnodup, ?_⟩
      · simp [set, EntryIndex.set, LazyHashIndex.insert, hbuilt, hfind, hpos, bind, Except.bind,
          pure, Except.pure]
      · intro _ other
        rw [IndexMap.find_emplace, position_append, hvalid.index hbuilt other]
        congr 1
        by_cases hother : key = other <;> simp [position, hother]

theorem erase_valid (hvalid : dict.Valid) : (dict.erase key).Valid where
  nodup := nodup_remove hvalid.nodup
  index hbuilt := by
    simp only [erase, EntryIndex.erase] at hbuilt
    split at hbuilt
    · cases hbuilt
    · next hstale => exact absurd hbuilt hstale

end DictionaryValue

end Luma
