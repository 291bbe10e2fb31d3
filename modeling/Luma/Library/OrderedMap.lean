-- SUMMARY: Association lists in insertion order, where the last write of a key wins.
import Mathlib.Data.List.Nodup

/-! # Ordered Maps

A map that remembers the order in which its keys were first inserted is a list of
entries with distinct keys. Inserting a present key overwrites its value in place;
inserting a new one appends an entry. -/

namespace OrderedMap

variable {κ ν : Type} [DecidableEq κ]

/-- The keys, in insertion order. -/
abbrev keys (entries : List (κ × ν)) : List κ := entries.map Prod.fst

/-- The value of the first entry with a key. -/
def lookup (key : κ) : List (κ × ν) → Option ν
  | [] => none
  | entry :: entries => if entry.1 = key then some entry.2 else lookup key entries

/-- The position of the first entry with a key. -/
def position (key : κ) : List (κ × ν) → Option Nat
  | [] => none
  | entry :: entries => if entry.1 = key then some 0 else (position key entries).map (· + 1)

/-- Whether a key is present. -/
def contains (key : κ) (entries : List (κ × ν)) : Bool := entries.any fun entry => entry.1 = key

/-- Overwrite the value of a key, or append an entry for it. -/
def insert (key : κ) (value : ν) : List (κ × ν) → List (κ × ν)
  | [] => [(key, value)]
  | entry :: entries =>
    if entry.1 = key then (entry.1, value) :: entries else entry :: insert key value entries

/-- Drop every entry of a key. -/
def remove (key : κ) (entries : List (κ × ν)) : List (κ × ν) :=
  entries.filter fun entry => entry.1 ≠ key

/-- Insert entries one after another. -/
def insertAll (entries : List (κ × ν)) : List (κ × ν) → List (κ × ν)
  | [] => entries
  | pair :: pairs => insertAll (insert pair.1 pair.2 entries) pairs

variable {entries : List (κ × ν)} {key other : κ} {value : ν}

/-! ## Lookups -/

-- The equations of the definitions are derived here, once for all proofs.
section
attribute [local simp] lookup position insert insertAll
end

theorem mem_of_lookup (hfind : lookup key entries = some value) : (key, value) ∈ entries := by
  induction entries with
  | nil => cases hfind
  | cons entry entries ih =>
    rw [lookup] at hfind
    split at hfind
    · next hkey =>
      cases hfind
      exact hkey ▸ List.mem_cons_self
    · exact List.mem_cons_of_mem _ (ih hfind)

/-- With distinct keys, looking up the key of an entry finds that entry. -/
theorem lookup_of_mem (hnodup : (keys entries).Nodup) (hmem : (key, value) ∈ entries) :
    lookup key entries = some value := by
  induction entries with
  | nil => exact absurd hmem List.not_mem_nil
  | cons entry entries ih =>
    rw [keys, List.map_cons, List.nodup_cons] at hnodup
    rcases List.mem_cons.mp hmem with rfl | htail
    · simp [lookup]
    · have hne : entry.1 ≠ key := fun heq =>
        hnodup.1 (heq ▸ List.mem_map_of_mem (f := Prod.fst) htail)
      rw [lookup, if_neg hne]
      exact ih hnodup.2 htail

theorem lookup_eq_none : lookup key entries = none ↔ key ∉ keys entries := by
  induction entries with
  | nil => simp [lookup]
  | cons entry entries ih =>
    rw [lookup, keys, List.map_cons, List.mem_cons, not_or]
    by_cases hkey : entry.1 = key
    · simp [hkey]
    · rw [if_neg hkey, ih]
      exact (and_iff_right (Ne.symm hkey)).symm

/-- Looking up by position finds the same value. -/
theorem lookup_eq_position :
    lookup key entries = (position key entries).bind fun i => entries[i]?.map Prod.snd := by
  induction entries with
  | nil => rfl
  | cons entry entries ih =>
    rw [lookup, position]
    split
    · rfl
    · rw [ih]
      cases position key entries <;> rfl

theorem lookup_append {rest : List (κ × ν)} :
    lookup key (entries ++ rest) = (lookup key entries).or (lookup key rest) := by
  induction entries with
  | nil => rfl
  | cons entry entries ih =>
    rw [List.cons_append, lookup, lookup]
    split
    · rfl
    · exact ih

theorem position_eq_none : position key entries = none ↔ key ∉ keys entries := by
  induction entries with
  | nil => simp [position]
  | cons entry entries ih =>
    rw [position, keys, List.map_cons, List.mem_cons, not_or]
    by_cases hkey : entry.1 = key
    · simp [hkey]
    · rw [if_neg hkey, Option.map_eq_none_iff, ih]
      exact (and_iff_right (Ne.symm hkey)).symm

/-- Positions do not move when entries are appended. -/
theorem position_append {rest : List (κ × ν)} :
    position key (entries ++ rest) =
      (position key entries).or ((position key rest).map (· + entries.length)) := by
  induction entries with
  | nil => simp [position]
  | cons entry entries ih =>
    rw [List.cons_append, position, position]
    split
    · rfl
    · rw [ih]
      cases position key entries <;> cases position key rest <;> simp; omega

theorem contains_eq_isSome : contains key entries = (position key entries).isSome := by
  induction entries with
  | nil => rfl
  | cons entry entries ih =>
    rw [contains] at ih
    rw [contains, position, List.any_cons, ih]
    by_cases hkey : entry.1 = key
    · simp [hkey]
    · simp [hkey]

/-- Positions depend on the keys only. -/
theorem position_congr {ν' : Type} {entries' : List (κ × ν')} (hkeys : keys entries = keys entries') :
    position key entries = position key entries' := by
  induction entries generalizing entries' with
  | nil =>
    cases entries' with
    | nil => rfl
    | cons => cases hkeys
  | cons entry entries ih =>
    cases entries' with
    | nil => cases hkeys
    | cons entry' entries' =>
      obtain ⟨hhead, htail⟩ := List.cons.inj hkeys
      rw [position, position, hhead, ih htail]

omit [DecidableEq κ] in
/-- Changing the values keeps the keys. -/
theorem keys_mapValues {ν' : Type} {f : κ × ν → ν'} :
    keys (entries.map fun entry => (entry.1, f entry)) = keys entries := by
  rw [keys, List.map_map]
  rfl

/-! ## Insertion -/

/-- Inserting a new key appends it. -/
theorem insert_of_notMem (hnew : key ∉ keys entries) :
    insert key value entries = entries ++ [(key, value)] := by
  induction entries with
  | nil => rfl
  | cons entry entries ih =>
    rw [keys, List.map_cons, List.mem_cons, not_or] at hnew
    rw [insert, if_neg (Ne.symm hnew.1), ih hnew.2, List.cons_append]

/-- Inserting a present key writes its value where the key is. -/
theorem insert_of_position {i : Nat} (hpos : position key entries = some i) :
    insert key value entries = entries.modify i fun entry => (entry.1, value) := by
  induction entries generalizing i with
  | nil => cases hpos
  | cons entry entries ih =>
    rw [position] at hpos
    rw [insert]
    split at hpos
    · next hkey =>
      cases hpos
      rw [if_pos hkey]
      rfl
    · next hkey =>
      obtain ⟨j, hj, rfl⟩ := Option.map_eq_some_iff.mp hpos
      rw [if_neg hkey, ih hj]
      rfl

/-- A key keeps its place; a new key comes last. -/
theorem keys_insert : keys (insert key value entries) =
    if key ∈ keys entries then keys entries else keys entries ++ [key] := by
  induction entries with
  | nil => rfl
  | cons entry entries ih =>
    rw [insert]
    by_cases hkey : entry.1 = key
    · simp [hkey]
    · rw [if_neg hkey]
      by_cases hmem : key ∈ keys entries
      · rw [if_pos hmem] at ih
        simp [hmem, ih]
      · rw [if_neg hmem] at ih
        simp [hmem, ih, Ne.symm hkey]

theorem nodup_insert (hnodup : (keys entries).Nodup) : (keys (insert key value entries)).Nodup := by
  rw [keys_insert]
  split
  · exact hnodup
  · next hnew => exact List.concat_eq_append ▸ hnodup.concat hnew

/-- Inserting entries with distinct new keys appends them all. -/
theorem insertAll_of_nodup {pairs : List (κ × ν)} (hnodup : (keys (entries ++ pairs)).Nodup) :
    insertAll entries pairs = entries ++ pairs := by
  induction pairs generalizing entries with
  | nil => exact (List.append_nil entries).symm
  | cons pair pairs ih =>
    have hnew : pair.1 ∉ keys entries := by
      intro hmem
      rw [keys, List.map_append] at hnodup
      exact List.disjoint_of_nodup_append hnodup hmem List.mem_cons_self
    have hsplit : entries ++ pair :: pairs = entries ++ [(pair.1, pair.2)] ++ pairs := by simp
    rw [insertAll, insert_of_notMem hnew, hsplit]
    exact ih (hsplit ▸ hnodup)

/-- The last write of a key wins, and no other key is affected. -/
theorem lookup_insert : lookup other (insert key value entries) =
    if key = other then some value else lookup other entries := by
  induction entries with
  | nil => rfl
  | cons entry entries ih =>
    rw [insert]
    by_cases hkey : entry.1 = key
    · rw [if_pos hkey, lookup, lookup, hkey]
      split <;> rfl
    · rw [if_neg hkey, lookup, lookup, ih]
      by_cases hother : entry.1 = other
      · rw [if_pos hother, if_pos hother, if_neg fun heq => hkey (hother.trans heq.symm)]
      · rw [if_neg hother, if_neg hother]

/-- Writing the value a key has changes nothing. -/
theorem insert_of_lookup (hfind : lookup key entries = some value) : insert key value entries = entries := by
  induction entries with
  | nil => cases hfind
  | cons entry entries ih =>
    rw [lookup] at hfind
    rw [insert]
    split at hfind
    · next hkey =>
      cases hfind
      rw [if_pos hkey]
    · next hkey => rw [if_neg hkey, ih hfind]

theorem mem_of_mem_insert {entry : κ × ν} (hmem : entry ∈ insert key value entries) :
    entry = (key, value) ∨ entry ∈ entries := by
  induction entries with
  | nil => exact .inl (List.mem_singleton.mp hmem)
  | cons first entries ih =>
    rw [insert] at hmem
    split at hmem
    · next hkey =>
      obtain rfl | hmem := List.mem_cons.mp hmem
      · exact .inl (hkey ▸ rfl)
      · exact .inr (List.mem_cons_of_mem _ hmem)
    · obtain rfl | hmem := List.mem_cons.mp hmem
      · exact .inr List.mem_cons_self
      · exact (ih hmem).imp_right (List.mem_cons_of_mem _)

/-! ## Removal -/

/-- Removal keeps the other keys, in their order. -/
theorem keys_remove : keys (remove key entries) = (keys entries).filter (· ≠ key) := by
  rw [keys, remove, keys, List.filter_map]
  rfl

theorem remove_of_notMem (hnew : key ∉ keys entries) : remove key entries = entries := by
  refine List.filter_eq_self.mpr fun entry hentry => decide_eq_true ?_
  exact fun heq => hnew (heq ▸ List.mem_map_of_mem hentry)

theorem length_remove_lt (hmem : key ∈ keys entries) : (remove key entries).length < entries.length := by
  obtain ⟨entry, hentry, rfl⟩ := List.mem_map.mp hmem
  exact List.length_filter_lt_length_iff_exists.mpr ⟨entry, hentry, by simp⟩

theorem nodup_remove (hnodup : (keys entries).Nodup) : (keys (remove key entries)).Nodup := by
  rw [keys_remove]
  exact hnodup.filter _

theorem lookup_remove : lookup other (remove key entries) =
    if key = other then none else lookup other entries := by
  induction entries with
  | nil => simp [remove, lookup]
  | cons entry entries ih =>
    rw [remove] at ih ⊢
    by_cases hkey : entry.1 = key
    · rw [List.filter_cons_of_neg (by simpa using hkey), ih, lookup]
      by_cases hother : key = other
      · rw [if_pos hother, if_pos hother]
      · rw [if_neg hother, if_neg hother, if_neg (hkey ▸ hother)]
    · rw [List.filter_cons_of_pos (by simpa using hkey), lookup, ih, lookup]
      by_cases hother : entry.1 = other
      · rw [if_pos hother, if_pos hother, if_neg fun heq => hkey (hother.trans heq.symm)]
      · rw [if_neg hother, if_neg hother]

end OrderedMap
