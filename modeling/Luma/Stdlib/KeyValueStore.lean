-- SUMMARY: The text codec of key-value stores and its round trip.
import Luma.Library.BigEndian
import Luma.Library.OrderedMap
import Luma.Library.Scanning

/-! # Key-Value Stores

One record a line: the escaped key, a tab, the escaped value, a newline. Tabs, newlines
and backslashes are escaped, so a record stays on its line and its first tab ends the key. -/

namespace Luma.KeyValueStore

open Codec

/-! ## Escapes -/

def tab : UInt8 := 9
def newline : UInt8 := 10
def backslash : UInt8 := 92
/-- The letters `t` and `n`. -/
def letterT : UInt8 := 116
def letterN : UInt8 := 110

def escapeChar (ch : UInt8) : Bytes :=
  if ch = tab then [backslash, letterT]
  else if ch = newline then [backslash, letterN]
  else if ch = backslash then [backslash, backslash]
  else [ch]

def escapeInto (out s : Bytes) : Bytes := out ++ s.flatMap escapeChar

def escape (s : Bytes) : Bytes := escapeInto [] s

/-- A backslash before anything but the three escaped characters stands for itself, as
    does one at the end. -/
def unescape : Bytes → Bytes
  | [] => []
  | [c] => [c]
  | c :: d :: rest =>
    if c = backslash then
      if d = letterT then tab :: unescape rest
      else if d = letterN then newline :: unescape rest
      else if d = backslash then backslash :: unescape rest
      else c :: unescape (d :: rest)
    else c :: unescape (d :: rest)

/-! ## Stores -/

/-- The entries of a store, in one of the orders in which an iteration may meet them. -/
structure StoreEntries where
  entries : List (Bytes × Bytes)
  nodup : (OrderedMap.keys entries).Nodup

def StoreEntries.find (store : StoreEntries) (key : Bytes) : Option Bytes :=
  OrderedMap.lookup key store.entries

def StoreEntries.empty : StoreEntries := ⟨[], List.nodup_nil⟩

/-- `entries[key] = value`. -/
def StoreEntries.set (store : StoreEntries) (key value : Bytes) : StoreEntries :=
  ⟨OrderedMap.insert key value store.entries, OrderedMap.nodup_insert store.nodup⟩

structure StoreLimits where
  maxDictionarySize : Nat
  maxStringSize : Nat

/-- What reading a store raises: a message and a hint. -/
structure StoreError where
  message : String
  hint : String
  deriving DecidableEq, Repr

/-- The two fields of a line, unescaped; `none` for a line without a tab. -/
def lineFields (line : Bytes) : Option (Bytes × Bytes) :=
  if tab ∈ line then
    some (unescape (line.takeWhile (· ≠ tab)), unescape (line.dropWhile (· ≠ tab)).tail)
  else none

/-- One line of the file. Lines that are empty or have no tab are skipped. -/
def parseLine (limits : StoreLimits) (store : StoreEntries) (line : Bytes) :
    Except StoreError StoreEntries :=
  match lineFields line with
  | none => .ok store
  | some (key, value) =>
    if limits.maxDictionarySize ≤ store.entries.length then
      .error {
        message := "KeyValueStore file exceeds maximum entry count"
        hint := "the store file contains more entries than max_dictionary_size allows" }
    else if limits.maxStringSize < key.length ∨ limits.maxStringSize < value.length then
      .error {
        message := "KeyValueStore entry exceeds maximum string size"
        hint := "a key or value in the store file is larger than max_string_size allows" }
    else .ok (store.set key value)

/-- The loop over the lines of what is left of the text. -/
def parseLines (limits : StoreLimits) (store : StoreEntries) (text : Bytes) :
    Except StoreError StoreEntries :=
  match parseLine limits store (text.takeWhile (· ≠ newline)) with
  | .error e => .error e
  | .ok store =>
    match h : text.dropWhile (· ≠ newline) with
    | [] => .ok store
    | _ :: rest =>
      have : rest.length < text.length := by
        have hle := (List.dropWhile_suffix (l := text) (· ≠ newline)).length_le
        rw [h, List.length_cons] at hle
        exact hle
      parseLines limits store rest
  termination_by text.length

def parseStore (limits : StoreLimits) (text : Bytes) : Except StoreError StoreEntries :=
  parseLines limits .empty text

def serializeEntry (out : Bytes) (entry : Bytes × Bytes) : Bytes :=
  escapeInto (escapeInto out entry.1 ++ [tab]) entry.2 ++ [newline]

def serializeStore (store : StoreEntries) : Bytes := store.entries.foldl serializeEntry []

/-! ## Escaped strings -/

theorem escape_cons (c : UInt8) (s : Bytes) : escape (c :: s) = escapeChar c ++ escape s := rfl

/-- A byte that is not a backslash is read as it is. -/
theorem unescape_plain {c : UInt8} (h : c ≠ backslash) (s : Bytes) :
    unescape (c :: s) = c :: unescape s := by
  cases s with
  | nil => rfl
  | cons d rest => rw [unescape, if_neg h]

/-- Reading one escaped byte. -/
theorem unescape_escapeChar (c : UInt8) (s : Bytes) :
    unescape (escapeChar c ++ s) = c :: unescape s := by
  unfold escapeChar
  split
  · next htab => rw [htab]; rfl
  · split
    · next hnewline => rw [hnewline]; rfl
    · split
      · next hbackslash => rw [hbackslash]; rfl
      · next hplain => exact unescape_plain hplain s

theorem unescape_escape (s : Bytes) : unescape (escape s) = s := by
  induction s with
  | nil => rfl
  | cons c s ih => rw [escape_cons, unescape_escapeChar, ih]

/-- Neither separator is part of an escaped byte. -/
theorem separators_notMem_escapeChar (c : UInt8) :
    tab ∉ escapeChar c ∧ newline ∉ escapeChar c := by
  unfold escapeChar
  split
  · decide
  · next htab =>
    split
    · decide
    · next hnewline =>
      split
      · decide
      · exact ⟨by simp [Ne.symm htab], by simp [Ne.symm hnewline]⟩

theorem separators_notMem_escape (s : Bytes) : tab ∉ escape s ∧ newline ∉ escape s := by
  induction s with
  | nil => exact ⟨List.not_mem_nil, List.not_mem_nil⟩
  | cons c s ih =>
    obtain ⟨htab, hnewline⟩ := separators_notMem_escapeChar c
    rw [escape_cons, List.mem_append, List.mem_append, not_or, not_or]
    exact ⟨⟨htab, ih.1⟩, hnewline, ih.2⟩

/-! ## Lines -/

section Separators
variable {separator : UInt8} {front rest : Bytes}

theorem ne_separator (h : separator ∉ front) : ∀ c ∈ front, decide (c ≠ separator) = true := by
  intro c hc
  rw [decide_eq_true_eq]
  rintro rfl
  exact h hc

theorem takeWhile_separator (h : separator ∉ front) :
    (front ++ separator :: rest).takeWhile (· ≠ separator) = front :=
  Scanning.takeWhile_run (ne_separator h) (by simp)

theorem dropWhile_separator (h : separator ∉ front) :
    (front ++ separator :: rest).dropWhile (· ≠ separator) = separator :: rest :=
  Scanning.dropWhile_run (ne_separator h) (by simp)

end Separators

/-- The record of an entry, without its newline. -/
def record (entry : Bytes × Bytes) : Bytes := escape entry.1 ++ tab :: escape entry.2

theorem newline_notMem_record (entry : Bytes × Bytes) : newline ∉ record entry := by
  rw [record, List.mem_append, List.mem_cons, not_or, not_or]
  exact ⟨(separators_notMem_escape entry.1).2, by decide, (separators_notMem_escape entry.2).2⟩

/-- The first tab of a record ends the key. -/
theorem lineFields_record (entry : Bytes × Bytes) : lineFields (record entry) = some entry := by
  have htab := (separators_notMem_escape entry.1).1
  rw [lineFields, if_pos (by simp [record]), record, takeWhile_separator htab,
    dropWhile_separator htab, List.tail_cons, unescape_escape, unescape_escape]

theorem parseLine_record {limits : StoreLimits} {store : StoreEntries} {entry : Bytes × Bytes}
    (hcount : store.entries.length < limits.maxDictionarySize)
    (hkey : entry.1.length ≤ limits.maxStringSize)
    (hvalue : entry.2.length ≤ limits.maxStringSize) :
    parseLine limits store (record entry) = .ok (store.set entry.1 entry.2) := by
  rw [parseLine, lineFields_record]
  simp only
  rw [if_neg (Nat.not_le.mpr hcount), if_neg (by omega)]

/-- The loop reads a line up to its newline and goes on after it. -/
theorem parseLines_line {limits : StoreLimits} {store store' : StoreEntries} {line rest : Bytes}
    (hline : newline ∉ line) (hparse : parseLine limits store line = .ok store') :
    parseLines limits store (line ++ newline :: rest) = parseLines limits store' rest := by
  rw [parseLines, takeWhile_separator hline, hparse]
  simp only
  split
  · next h =>
    rw [dropWhile_separator hline] at h
    cases h
  · next h =>
    rw [dropWhile_separator hline] at h
    cases h
    rfl

theorem parseLines_nil {limits : StoreLimits} {store : StoreEntries} :
    parseLines limits store [] = .ok store := by
  rw [parseLines]
  rfl

/-! ## Stores -/

/-- A store that can be read back: not too many entries, none of them too large. -/
structure WithinLimits (limits : StoreLimits) (store : StoreEntries) : Prop where
  count : store.entries.length ≤ limits.maxDictionarySize
  keys : ∀ entry ∈ store.entries, entry.1.length ≤ limits.maxStringSize
  values : ∀ entry ∈ store.entries, entry.2.length ≤ limits.maxStringSize

/-- The text of a store is its records, each ended by a newline. -/
theorem serializeStore_eq (store : StoreEntries) :
    serializeStore store = store.entries.flatMap fun entry => record entry ++ [newline] := by
  have hentry (out : Bytes) (entry : Bytes × Bytes) :
      serializeEntry out entry = out ++ (record entry ++ [newline]) := by
    simp [serializeEntry, record, escapeInto, escape]
  have hfold (entries : List (Bytes × Bytes)) (out : Bytes) :
      entries.foldl serializeEntry out =
        out ++ entries.flatMap fun entry => record entry ++ [newline] := by
    induction entries generalizing out with
    | nil => simp
    | cons entry entries ih => simp [ih, hentry]
  exact hfold store.entries []

theorem StoreEntries.ext {store store' : StoreEntries} (h : store.entries = store'.entries) :
    store = store' := by
  cases store
  cases store'
  cases h
  rfl

/-- The loop reads the records of entries with new keys one by one. -/
theorem parseLines_records {limits : StoreLimits} {store whole : StoreEntries}
    {rest : List (Bytes × Bytes)} (hwhole : whole.entries = store.entries ++ rest)
    (hfits : WithinLimits limits whole) :
    parseLines limits store (rest.flatMap fun entry => record entry ++ [newline]) =
      .ok whole := by
  induction rest generalizing store with
  | nil =>
    rw [List.append_nil] at hwhole
    rw [List.flatMap_nil, parseLines_nil, StoreEntries.ext hwhole]
  | cons entry rest ih =>
    have hmem : entry ∈ whole.entries := by simp [hwhole]
    have hcount := hfits.count
    rw [hwhole, List.length_append, List.length_cons] at hcount
    have hnodup := whole.nodup
    rw [hwhole, OrderedMap.keys, List.map_append, List.map_cons] at hnodup
    have hnew : entry.1 ∉ OrderedMap.keys store.entries := by
      intro hold
      exact (List.nodup_append.mp hnodup).2.2 _ hold _ List.mem_cons_self rfl
    have hset : (store.set entry.1 entry.2).entries = store.entries ++ [entry] :=
      OrderedMap.insert_of_notMem hnew
    rw [List.flatMap_cons, List.append_assoc, List.cons_append, List.nil_append,
      parseLines_line (newline_notMem_record entry)
        (parseLine_record (by omega) (hfits.keys entry hmem) (hfits.values entry hmem))]
    apply ih
    rw [hset, hwhole, List.append_assoc, List.cons_append, List.nil_append]

theorem parseStore_serializeStore {limits : StoreLimits} {store : StoreEntries}
    (hfits : WithinLimits limits store) :
    parseStore limits (serializeStore store) = .ok store := by
  rw [serializeStore_eq]
  exact parseLines_records (by rfl) hfits

/-- Escaping is undone and hides the separators, so a store comes back as it was written:
    the same value, or none, under every key. -/
theorem store_round_trip :
    (∀ s, unescape (escape s) = s ∧ tab ∉ escape s ∧ newline ∉ escape s) ∧
      ∀ {limits store}, WithinLimits limits store →
        ∃ parsed, parseStore limits (serializeStore store) = .ok parsed ∧
          ∀ key, parsed.find key = store.find key :=
  ⟨fun s => ⟨unescape_escape s, separators_notMem_escape s⟩,
    fun hfits => ⟨_, parseStore_serializeStore hfits, fun _ => rfl⟩⟩

/-- A store whose key ends in a backslash and whose value is made of separators. -/
def awkwardStore : StoreEntries := ⟨[([97, 92], [9, 10, 92]), ([], [])], by decide⟩

theorem store_round_trip_awkward :
    ∃ parsed, parseStore ⟨2, 3⟩ (serializeStore awkwardStore) = .ok parsed ∧
      ∀ key, parsed.find key = awkwardStore.find key :=
  store_round_trip.2 ⟨by decide, by decide, by decide⟩

end Luma.KeyValueStore
