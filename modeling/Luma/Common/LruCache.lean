-- SUMMARY: The cache that evicts its least recently used entry refines a list in recency order.
import Luma.Library.LinkedList
import Luma.Library.Serving

/-! # Least Recently Used Cache

`LruCache` keeps its entries in a linked list, the most recently used first, and finds the
node of a key in a hash map. Its purpose is `Recency`: the keys used last, in the order of
their last use, at most as many as the capacity. -/

namespace Luma

open OrderedMap

/-- The entries, the most recently used first, and the node of each key. -/
structure LruCache (κ ν : Type) where
  maxSize : Nat
  order : LinkedList (κ × ν)
  map : List (κ × Nat)

/-- What a caller asks of a cache. -/
inductive CacheRequest (κ ν : Type) where
  | put (key : κ) (value : ν)
  | get (key : κ)
  | contains (key : κ)
  | erase (key : κ)
  | clear
  | size
  | forEach (func : κ → ν → ν)

/-- What a caller sees: a value that is stored or found, a truth value, a size, or the
    entries that were visited. -/
inductive CacheAnswer (κ ν : Type) where
  | value (v : ν)
  | found (v : Option ν)
  | truth (b : Bool)
  | size (n : Nat)
  | visited (entries : List (κ × ν))
  | done

variable {κ ν : Type} [DecidableEq κ]

namespace LruCache

def validatedCapacity (maxSize : Nat) : Except String Nat :=
  if maxSize = 0 then .error "LruCache: max_size must be greater than 0" else .ok maxSize

/-- A cache without entries. -/
def new (maxSize : Nat) : Except String (LruCache κ ν) :=
  (validatedCapacity maxSize).map fun maxSize => { maxSize, order := .empty, map := [] }

/-- Add a key to the map if it has none. -/
def tryEmplace (key : κ) (node : Nat) (map : List (κ × Nat)) : List (κ × Nat) :=
  match lookup key map with
  | some _ => map
  | none => map ++ [(key, node)]

/-- Evict the least recently used entry. -/
def evict (cache : LruCache κ ν) : LruCache κ ν :=
  match cache.order.nodes.getLast? with
  | some back => { cache with map := remove back.2.1 cache.map, order := cache.order.erase back.1 }
  | none => cache

/-- Insert or update a value, and promote its key. -/
def put (key : κ) (value : ν) (cache : LruCache κ ν) : ν × LruCache κ ν :=
  match lookup key cache.map with
  | some node =>
    let updated := cache.order.update node fun entry => (entry.1, value)
    (value, { cache with order := updated.toFront node })
  | none =>
    let cache := if cache.map.length ≥ cache.maxSize then cache.evict else cache
    (value, { cache with
      order := cache.order.pushFront (key, value)
      map := tryEmplace key cache.order.fresh cache.map })

/-- Look up a key and promote it. -/
def get (key : κ) (cache : LruCache κ ν) : Option ν × LruCache κ ν :=
  match lookup key cache.map with
  | some node => ((cache.order.find node).map fun found => found.2.2, { cache with order := cache.order.toFront node })
  | none => (none, cache)

/-- Whether a key exists, without promoting it. -/
def contains (key : κ) (cache : LruCache κ ν) : Bool := (lookup key cache.map).isSome

def erase (key : κ) (cache : LruCache κ ν) : Bool × LruCache κ ν :=
  match lookup key cache.map with
  | some node => (true, { cache with order := cache.order.erase node, map := remove key cache.map })
  | none => (false, cache)

def clear (cache : LruCache κ ν) : LruCache κ ν := { cache with order := cache.order.clear, map := [] }

def size (cache : LruCache κ ν) : Nat := cache.map.length

/-- Visit all entries in order; a visit may change the value but not the key. -/
def forEach (func : κ → ν → ν) (cache : LruCache κ ν) : List (κ × ν) × LruCache κ ν :=
  (cache.order.elements,
    { cache with order := cache.order.mapNodes fun node => (node.2.1, func node.2.1 node.2.2) })

def answer : CacheRequest κ ν → LruCache κ ν → CacheAnswer κ ν × LruCache κ ν
  | .put key value, cache => ((cache.put key value).map .value id)
  | .get key, cache => ((cache.get key).map .found id)
  | .contains key, cache => (.truth (cache.contains key), cache)
  | .erase key, cache => ((cache.erase key).map .truth id)
  | .clear, cache => (.done, cache.clear)
  | .size, cache => (.size cache.size, cache)
  | .forEach func, cache => ((cache.forEach func).map .visited id)

end LruCache

/-! ## Recency -/

/-! The reference: entries with distinct keys, in the order of their last use. -/

namespace Recency

variable {capacity : Nat} {key : κ} {value : ν} {entries : List (κ × ν)}

/-- Use a key: it becomes the first, and those beyond the capacity are forgotten. -/
def put (capacity : Nat) (key : κ) (value : ν) (entries : List (κ × ν)) : List (κ × ν) :=
  ((key, value) :: remove key entries).take capacity

def get (key : κ) (entries : List (κ × ν)) : List (κ × ν) :=
  match lookup key entries with
  | some value => (key, value) :: remove key entries
  | none => entries

def answer (capacity : Nat) : CacheRequest κ ν → List (κ × ν) → CacheAnswer κ ν × List (κ × ν)
  | .put key value, entries => (.value value, put capacity key value entries)
  | .get key, entries => (.found (lookup key entries), get key entries)
  | .contains key, entries => (.truth (decide (key ∈ keys entries)), entries)
  | .erase key, entries => (.truth (decide (key ∈ keys entries)), remove key entries)
  | .clear, _ => (.done, [])
  | .size, entries => (.size entries.length, entries)
  | .forEach func, entries => (.visited entries, entries.map fun entry => (entry.1, func entry.1 entry.2))

/-- At capacity, a new key takes the place of the one used longest ago. -/
theorem put_of_full (hcapacity : 1 ≤ capacity) (hnew : key ∉ keys entries) (hfull : entries.length = capacity) :
    put capacity key value entries = (key, value) :: entries.dropLast := by
  obtain ⟨n, rfl⟩ := Nat.exists_eq_add_of_le' hcapacity
  rw [put, remove_of_notMem hnew, List.take_succ_cons, List.dropLast_eq_take, hfull, Nat.add_sub_cancel]

theorem put_of_room (hnew : key ∉ keys entries) (hroom : entries.length < capacity) :
    put capacity key value entries = (key, value) :: entries := by
  rw [put, remove_of_notMem hnew, List.take_of_length_le]
  exact hroom

/-- Using a key that is present forgets no other. -/
theorem put_of_mem (hmem : key ∈ keys entries) (hlength : entries.length ≤ capacity) :
    put capacity key value entries = (key, value) :: remove key entries := by
  rw [put, List.take_of_length_le]
  have hless := length_remove_lt hmem
  rw [List.length_cons]
  omega

end Recency

/-! ## The cache refines the reference -/

/-- The cache holds these entries in this order, and its map points at the node of each. -/
structure LruCache.Refines (capacity : Nat) (cache : LruCache κ ν) (entries : List (κ × ν)) : Prop where
  maxSize : cache.maxSize = capacity
  indexes : cache.order.Indexes Prod.fst cache.map
  elements : cache.order.elements = entries
  length_le : entries.length ≤ capacity

namespace LruCache.Refines

variable {capacity : Nat} {cache : LruCache κ ν} {entries : List (κ × ν)} {key : κ} {value : ν}

omit [DecidableEq κ] in
theorem nodup (h : cache.Refines capacity entries) : (keys entries).Nodup := h.elements ▸ h.indexes.unique

theorem lookup_eq_none (h : cache.Refines capacity entries) : lookup key cache.map = none ↔ key ∉ keys entries := by
  rw [OrderedMap.lookup_eq_none, h.indexes.keys_perm.mem_iff, h.elements]

/-- A key in the map points at its entry. -/
theorem of_lookup (h : cache.Refines capacity entries) {node : Nat} (hlookup : lookup key cache.map = some node) :
    ∃ v, (node, (key, v)) ∈ cache.order.nodes ∧ lookup key entries = some v := by
  obtain ⟨entry, hnode, rfl⟩ := h.indexes.lookup_eq_some.mp hlookup
  refine ⟨entry.2, hnode, lookup_of_mem h.nodup ?_⟩
  rw [← h.elements]
  exact List.mem_map_of_mem (f := Prod.snd) hnode

theorem mem_keys (h : cache.Refines capacity entries) {node : Nat} (hlookup : lookup key cache.map = some node) :
    key ∈ keys entries := by
  by_contra hnot
  rw [h.lookup_eq_none.mpr hnot] at hlookup
  cases hlookup

/-- Evicting drops the last entry. -/
theorem evict (h : cache.Refines capacity entries) : cache.evict.Refines capacity entries.dropLast := by
  have hlength : entries.dropLast.length ≤ capacity := by
    rw [List.length_dropLast]
    exact Nat.le_trans (Nat.sub_le _ _) h.length_le
  unfold LruCache.evict
  cases hback : cache.order.nodes.getLast? with
  | none =>
    have hnil : entries = [] := by
      rw [← h.elements, LinkedList.elements, List.getLast?_eq_none_iff.mp hback, List.map_nil]
    exact ⟨h.maxSize, h.indexes, by rw [h.elements, hnil, List.dropLast_nil], hlength⟩
  | some back =>
    obtain ⟨front, hnodes⟩ := List.getLast?_eq_some_iff.mp hback
    refine ⟨h.maxSize, h.indexes.erase (hnodes ▸ List.mem_append_right _ (List.mem_singleton_self _)), ?_, hlength⟩
    rw [← h.elements, LinkedList.elements, LinkedList.nodes_erase_last hnodes, LinkedList.elements, hnodes,
      List.map_append, List.map_singleton, List.dropLast_concat]

/-- A new entry goes to the front while there is room for it. -/
theorem insertNew (h : cache.Refines capacity entries) (hnew : key ∉ keys entries)
    (hroom : entries.length < capacity) :
    LruCache.Refines capacity { cache with
      order := cache.order.pushFront (key, value)
      map := tryEmplace key cache.order.fresh cache.map } ((key, value) :: entries) where
  maxSize := h.maxSize
  indexes := by
    have hmap : tryEmplace key cache.order.fresh cache.map = cache.map ++ [(key, cache.order.fresh)] := by
      rw [tryEmplace, h.lookup_eq_none.mpr hnew]
    dsimp only
    rw [hmap]
    refine h.indexes.pushFront (a := (key, value)) fun entry hentry heq => hnew ?_
    rw [h.elements] at hentry
    exact List.mem_map.mpr ⟨entry, hentry, heq⟩
  elements := by rw [← h.elements]; rfl
  length_le := hroom

theorem put (h : cache.Refines capacity entries) (hcapacity : 1 ≤ capacity) (key : κ) (value : ν) :
    (cache.put key value).1 = value ∧
      (cache.put key value).2.Refines capacity (Recency.put capacity key value entries) := by
  unfold LruCache.put
  cases hlookup : lookup key cache.map with
  | some node =>
    refine ⟨rfl, ?_⟩
    obtain ⟨old, hnode, -⟩ := h.of_lookup hlookup
    have hindexes : (cache.order.update node fun entry => (entry.1, value)).Indexes Prod.fst cache.map :=
      h.indexes.mapNodes fun other _ => by split <;> rfl
    have hnode' : (node, (key, value)) ∈ (cache.order.update node fun entry => (entry.1, value)).nodes :=
      List.mem_map.mpr ⟨_, hnode, by simp⟩
    rw [Recency.put_of_mem (h.mem_keys hlookup) h.length_le]
    refine ⟨h.maxSize, hindexes.toFront hnode', ?_, ?_⟩
    · refine (hindexes.elements_toFront hnode').trans (congrArg _ ?_)
      rw [remove, ← h.elements]
      exact LinkedList.Indexes.elements_filter_update hnode fun _ => rfl
    · have hless := length_remove_lt (h.mem_keys hlookup)
      have hlength := h.length_le
      rw [List.length_cons]
      omega
  | none =>
    have hnew := h.lookup_eq_none.mp hlookup
    refine ⟨rfl, ?_⟩
    have hsize : cache.map.length = entries.length := by
      rw [h.indexes.length_eq, ← h.elements, LinkedList.elements, List.length_map]
    dsimp only
    rw [hsize, h.maxSize]
    by_cases hfull : entries.length ≥ capacity
    · have heq : entries.length = capacity := Nat.le_antisymm h.length_le hfull
      rw [if_pos hfull, Recency.put_of_full hcapacity hnew heq]
      refine h.evict.insertNew (fun hmem => hnew ?_) ?_
      · exact (List.dropLast_sublist _).map Prod.fst |>.mem hmem
      · rw [List.length_dropLast]
        omega
    · rw [if_neg hfull, Recency.put_of_room hnew (Nat.not_le.mp hfull)]
      exact h.insertNew hnew (Nat.not_le.mp hfull)

theorem get (h : cache.Refines capacity entries) (key : κ) :
    (cache.get key).1 = lookup key entries ∧ (cache.get key).2.Refines capacity (Recency.get key entries) := by
  unfold LruCache.get
  cases hlookup : lookup key cache.map with
  | some node =>
    obtain ⟨v, hnode, hvalue⟩ := h.of_lookup hlookup
    have hfind : cache.order.find node = some (node, (key, v)) := LinkedList.find_eq_some.mpr ⟨hnode, rfl⟩
    rw [Recency.get, hvalue]
    dsimp only
    rw [hfind]
    refine ⟨rfl, h.maxSize, h.indexes.toFront hnode, ?_, ?_⟩
    · rw [h.indexes.elements_toFront hnode, h.elements]
      rfl
    · have hless := length_remove_lt (h.mem_keys hlookup)
      have hlength := h.length_le
      rw [List.length_cons]
      omega
  | none =>
    rw [Recency.get, OrderedMap.lookup_eq_none.mpr (h.lookup_eq_none.mp hlookup)]
    exact ⟨rfl, h⟩

theorem contains (h : cache.Refines capacity entries) (key : κ) : cache.contains key = decide (key ∈ keys entries) := by
  rw [LruCache.contains]
  cases hlookup : lookup key cache.map with
  | some node => exact (decide_eq_true (h.mem_keys hlookup)).symm
  | none => exact (decide_eq_false (h.lookup_eq_none.mp hlookup)).symm

theorem erase (h : cache.Refines capacity entries) (key : κ) :
    (cache.erase key).1 = decide (key ∈ keys entries) ∧ (cache.erase key).2.Refines capacity (remove key entries) := by
  have hlength : (remove key entries).length ≤ capacity := Nat.le_trans (List.length_filter_le _ _) h.length_le
  unfold LruCache.erase
  cases hlookup : lookup key cache.map with
  | some node =>
    obtain ⟨v, hnode, -⟩ := h.of_lookup hlookup
    refine ⟨(decide_eq_true (h.mem_keys hlookup)).symm, h.maxSize, h.indexes.erase hnode, ?_, hlength⟩
    rw [h.indexes.elements_erase hnode, h.elements]
    rfl
  | none =>
    have hnew := h.lookup_eq_none.mp hlookup
    rw [remove_of_notMem hnew]
    exact ⟨(decide_eq_false hnew).symm, h⟩

omit [DecidableEq κ] in
theorem clear (h : cache.Refines capacity entries) : cache.clear.Refines capacity [] :=
  ⟨h.maxSize, .clear, rfl, Nat.zero_le _⟩

omit [DecidableEq κ] in
theorem size (h : cache.Refines capacity entries) : cache.size = entries.length := by
  rw [LruCache.size, h.indexes.length_eq, ← h.elements, LinkedList.elements, List.length_map]

omit [DecidableEq κ] in
theorem forEach (h : cache.Refines capacity entries) (func : κ → ν → ν) :
    (cache.forEach func).1 = entries ∧
      (cache.forEach func).2.Refines capacity (entries.map fun entry => (entry.1, func entry.1 entry.2)) := by
  refine ⟨h.elements, h.maxSize, h.indexes.mapNodes fun _ _ => rfl, ?_, ?_⟩
  · refine LinkedList.elements_mapNodes.trans ?_
    rw [← h.elements, LinkedList.elements, List.map_map]
    rfl
  · rw [List.length_map]
    exact h.length_le

/-- One request: the cache answers from the reference, and refines it afterwards. -/
theorem answer (h : cache.Refines capacity entries) (hcapacity : 1 ≤ capacity) (request : CacheRequest κ ν) :
    (cache.answer request).1 = (Recency.answer capacity request entries).1 ∧
      (cache.answer request).2.Refines capacity (Recency.answer capacity request entries).2 := by
  cases request with
  | put key value =>
    obtain ⟨hvalue, hrefines⟩ := h.put hcapacity key value
    exact ⟨congrArg CacheAnswer.value hvalue, hrefines⟩
  | get key =>
    obtain ⟨hfound, hrefines⟩ := h.get key
    exact ⟨congrArg CacheAnswer.found hfound, hrefines⟩
  | contains key => exact ⟨congrArg CacheAnswer.truth (h.contains key), h⟩
  | erase key =>
    obtain ⟨hfound, hrefines⟩ := h.erase key
    exact ⟨congrArg CacheAnswer.truth hfound, hrefines⟩
  | clear => exact ⟨rfl, h.clear⟩
  | size => exact ⟨congrArg CacheAnswer.size h.size, h⟩
  | forEach func =>
    obtain ⟨hvisited, hrefines⟩ := h.forEach func
    exact ⟨congrArg CacheAnswer.visited hvisited, hrefines⟩

end LruCache.Refines

omit [DecidableEq κ] in
/-- A new cache is the reference without entries. -/
theorem LruCache.new_refines {capacity : Nat} (hcapacity : 1 ≤ capacity) :
    ∃ cache : LruCache κ ν, LruCache.new capacity = .ok cache ∧ cache.Refines capacity [] := by
  refine ⟨{ maxSize := capacity, order := .empty, map := [] }, ?_, rfl, .empty, rfl, Nat.zero_le _⟩
  rw [LruCache.new, LruCache.validatedCapacity, if_neg (Nat.ne_of_gt hcapacity)]
  rfl

/-- Every run of a cache is one of the reference: the answers are the same, and afterwards
    the list and the map hold the same keys, each once, the map pointing at the node of
    each. At capacity, a new key takes the place of the one used longest ago. -/
theorem lru_cache_refines_recency (capacity : Nat) (hcapacity : 1 ≤ capacity) (requests : List (CacheRequest κ ν)) :
    ∃ cache : LruCache κ ν, LruCache.new capacity = .ok cache ∧
      let run := Serving.serve LruCache.answer requests cache
      let reference := Serving.serve (Recency.answer capacity) requests []
      run.1 = reference.1 ∧ run.2.order.elements = reference.2 ∧ reference.2.length ≤ capacity ∧
        (keys reference.2).Nodup ∧
        run.2.map.Perm (run.2.order.nodes.map fun node => (node.2.1, node.1)) ∧
        ∀ key value, key ∉ keys reference.2 → reference.2.length = capacity →
          (run.2.put key value).2.order.elements = (key, value) :: reference.2.dropLast := by
  obtain ⟨cache, hnew, hrefines⟩ := LruCache.new_refines (κ := κ) (ν := ν) hcapacity
  have hstep : ∀ request (cache : LruCache κ ν) entries, cache.Refines capacity entries →
      (cache.answer request).1 = (Recency.answer capacity request entries).1 ∧
        (cache.answer request).2.Refines capacity (Recency.answer capacity request entries).2 :=
    fun request _ _ h => h.answer hcapacity request
  obtain ⟨hanswers, hlast⟩ := Serving.serve_simulates hstep hrefines
  refine ⟨cache, hnew, hanswers, hlast.elements, hlast.length_le, hlast.nodup, hlast.indexes.perm, ?_⟩
  intro key value hkey hfull
  rw [(hlast.put hcapacity key value).2.elements, Recency.put_of_full hcapacity hkey hfull]

theorem lru_cache_refines_recency_two : (1 : Nat) ≤ 2 ∧ ∃ cache : LruCache Nat Nat, LruCache.new 2 = .ok cache ∧
    (Serving.serve LruCache.answer [.put 1 10, .put 2 20, .get 1, .put 3 30] cache).2.order.elements =
      [(3, 30), (1, 10)] := by
  refine ⟨by decide, ?_⟩
  obtain ⟨cache, hnew, -, helements, -⟩ := lru_cache_refines_recency (κ := Nat) (ν := Nat) 2 (by decide)
    [.put 1 10, .put 2 20, .get 1, .put 3 30]
  exact ⟨cache, hnew, helements.trans (by decide)⟩

end Luma
