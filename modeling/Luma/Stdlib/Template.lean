-- SUMMARY: Template expansion with a cached closing brace is the expansion in a single pass.
import Luma.Library.Scanning
import Luma.Stdlib.QueryString

/-! # Templates

A placeholder is a key of a dictionary between braces. The scan over the template keeps
the position of the closing brace it found last and looks up only names as long as some
key; the reference below does neither. -/

namespace Luma.Template

open Codec QueryString

def openBrace : UInt8 := 123
def closeBrace : UInt8 := 125

/-! ## The scan -/

def tooLarge : ErrorMessage := "String.template: result exceeds maximum string size"

/-- `s.substr(start, stop - start)` -/
def slice (s : Bytes) (start stop : Nat) : Bytes := (s.drop start).take (stop - start)

def appendBounded (maxStringSize : Nat) (result piece : Bytes) : Except ErrorMessage Bytes :=
  if piece.length > maxStringSize - result.length then .error tooLarge else .ok (result ++ piece)

/-- The variables of the loop. A search that found nothing is `none`, which is behind every
    position. -/
structure Scan where
  pos : Nat
  close : Option Nat
  result : Bytes
  dict : DictionaryValue Value

/-- `close <= open` -/
def isBehind (close : Option Nat) (opened : Nat) : Bool :=
  match close with
  | some k => k ≤ opened
  | none => false

/-- A value found under a name as long as some key. -/
def findName (keyLengths : List Nat) (dict : DictionaryValue Value) (name : Bytes) :
    Option Value × DictionaryValue Value :=
  if name.length ∈ keyLengths then dict.get name else (none, dict)

section Expansion

variable (maxStringSize : Nat) (display : Value → Bytes)

/-- One round: the whole result, or the variables of the next round. -/
def round (tmpl : Bytes) (keyLengths : List Nat) (st : Scan) : Except ErrorMessage (Bytes ⊕ Scan) :=
  match Scanning.findFrom openBrace tmpl st.pos with
  | none => do
    let result ← appendBounded maxStringSize st.result (tmpl.drop st.pos)
    return .inl result
  | some opened => do
    let result ← appendBounded maxStringSize st.result (slice tmpl st.pos opened)
    match if isBehind st.close opened then Scanning.findFrom closeBrace tmpl (opened + 1) else st.close with
    | none => do
      let result ← appendBounded maxStringSize result (tmpl.drop opened)
      return .inl result
    | some close =>
      let name := slice tmpl (opened + 1) close
      match findName keyLengths st.dict name with
      | (none, dict) => do
        let result ← appendBounded maxStringSize result [openBrace]
        return .inr { pos := opened + 1, close := some close, result, dict }
      | (some value, dict) => do
        let result ← appendBounded maxStringSize result (textOfValue display value)
        return .inr { pos := close + 1, close := some close, result, dict }

/-- The loop moves on by a character at least every round, so as many rounds as the template
    has characters are enough. -/
def loop (tmpl : Bytes) (keyLengths : List Nat) : (rounds : Nat) → Scan → Except ErrorMessage Bytes
  | 0, st => .ok st.result
  | rounds + 1, st =>
    if st.pos < tmpl.length then do
      match ← round maxStringSize display tmpl keyLengths st with
      | .inl result => return result
      | .inr st => loop tmpl keyLengths rounds st
    else .ok st.result

def templateImpl (tmpl : Bytes) (dict : DictionaryValue Value) : Except ErrorMessage Bytes :=
  let keyLengths := dict.entries.map fun entry => entry.1.length
  loop maxStringSize display tmpl keyLengths tmpl.length { pos := 0, close := some 0, result := [], dict }

end Expansion

/-! ## The single pass -/

/-- The expansion of the rest of a template: at an opening brace the text up to the next
    closing one, if that is a key, and the brace itself otherwise. -/
def expand (lookup : Bytes → Option Bytes) : Bytes → Bytes
  | [] => []
  | c :: rest =>
    if c = openBrace then
      match _hsplit : Scanning.splitFirst closeBrace rest with
      | none => openBrace :: expand lookup rest
      | some (name, after) =>
        match lookup name with
        | some text => text ++ expand lookup after
        | none => openBrace :: expand lookup rest
    else c :: expand lookup rest
termination_by s => s.length
decreasing_by
  · simp
  · rcases Scanning.splitFirst_cases closeBrace rest with ⟨before, behind, rfl, -, h⟩ | ⟨-, h⟩
    · cases _hsplit.symm.trans h
      simp
      omega
    · cases _hsplit.symm.trans h
  · simp
  · simp

/-- The text of the value of a key. -/
def textOfKey (display : Value → Bytes) (entries : List (Bytes × Value)) (key : Bytes) : Option Bytes :=
  (OrderedMap.lookup key entries).map (textOfValue display)

section Laws

variable {maxStringSize rounds : Nat} {display : Value → Bytes} {lookup : Bytes → Option Bytes}
  {tmpl s before rest name after result piece more : Bytes} {close : Option Nat} {pos : Nat}

theorem expand_cons_of_ne {c : UInt8} (h : c ≠ openBrace) : expand lookup (c :: rest) = c :: expand lookup rest := by
  rw [expand, if_neg h]

theorem expand_append (hfree : openBrace ∉ before) : expand lookup (before ++ rest) = before ++ expand lookup rest := by
  induction before with
  | nil => rfl
  | cons c before ih =>
    have hne : c ≠ openBrace := fun h => hfree (h ▸ List.mem_cons_self)
    rw [List.cons_append, expand_cons_of_ne hne, ih fun h => hfree (List.mem_cons_of_mem c h)]
    rfl

theorem expand_of_no_open (hfree : openBrace ∉ s) : expand lookup s = s := by
  have happend : expand lookup (s ++ []) = s ++ expand lookup [] := expand_append hfree
  rwa [expand, List.append_nil] at happend

theorem expand_open_unclosed (h : Scanning.splitFirst closeBrace rest = none) :
    expand lookup (openBrace :: rest) = openBrace :: expand lookup rest := by
  rw [expand, if_pos rfl]
  split
  next => rfl
  next name after hsome => exact absurd (h.symm.trans hsome) (by simp)

theorem expand_of_no_close (hfree : closeBrace ∉ s) : expand lookup s = s := by
  induction s with
  | nil => rw [expand]
  | cons c rest ih =>
    have hrest : closeBrace ∉ rest := fun h => hfree (List.mem_cons_of_mem c h)
    by_cases hc : c = openBrace
    · rw [hc, expand_open_unclosed (Scanning.splitFirst_of_notMem hrest), ih hrest]
    · rw [expand_cons_of_ne hc, ih hrest]

theorem expand_open (hfree : closeBrace ∉ name) : expand lookup (openBrace :: (name ++ closeBrace :: after)) =
    match lookup name with
    | some text => text ++ expand lookup after
    | none => openBrace :: expand lookup (name ++ closeBrace :: after) := by
  rw [expand, if_pos rfl]
  split
  next hnone => exact absurd ((Scanning.splitFirst_append hfree).symm.trans hnone) (by simp)
  next name' after' hsome =>
    cases (Scanning.splitFirst_append hfree).symm.trans hsome
    rfl

/-! ## Bounded results -/

/-- A result, unless it is too large. -/
def bounded (maxStringSize : Nat) (result : Bytes) : Except ErrorMessage Bytes :=
  if result.length ≤ maxStringSize then .ok result else .error tooLarge

theorem appendBounded_eq (hresult : result.length ≤ maxStringSize) :
    appendBounded maxStringSize result piece = bounded maxStringSize (result ++ piece) := by
  rw [appendBounded, bounded, List.length_append]
  split_ifs with hlarge hfits hfits
  · omega
  · rfl
  · rfl
  · omega

/-- Appending a piece and going on gives the bounded result if going on does: a result that
    is too large already stays so. -/
theorem appendBounded_bind {f : Bytes → Except ErrorMessage Bytes} (hresult : result.length ≤ maxStringSize)
    (hf : (result ++ piece).length ≤ maxStringSize → f (result ++ piece) = bounded maxStringSize (result ++ piece ++ more)) :
    (appendBounded maxStringSize result piece >>= f) = bounded maxStringSize (result ++ piece ++ more) := by
  rw [List.length_append] at hf
  rw [appendBounded]
  split_ifs with hlarge
  · have hover : ¬ (result ++ piece ++ more).length ≤ maxStringSize := by
      rw [List.length_append, List.length_append]
      omega
    rw [bounded, if_neg hover]
    rfl
  · exact hf (by omega)

/-! ## Names and the cached position -/

/-- The test on the length never hides a key. -/
theorem findName_spec {dict : DictionaryValue Value} (hvalid : dict.Valid) (name : Bytes) :
    (findName (dict.entries.map fun entry => entry.1.length) dict name).1 = OrderedMap.lookup name dict.entries ∧
      (findName (dict.entries.map fun entry => entry.1.length) dict name).2.entries = dict.entries ∧
      (findName (dict.entries.map fun entry => entry.1.length) dict name).2.Valid := by
  rw [findName]
  split_ifs with hlength
  · exact ⟨DictionaryValue.get_fst hvalid, DictionaryValue.find_entries, DictionaryValue.find_valid hvalid⟩
  · refine ⟨(OrderedMap.lookup_eq_none.mpr fun hmem => hlength ?_).symm, rfl, hvalid⟩
    obtain ⟨entry, hentry, rfl⟩ := List.mem_map.mp hmem
    exact List.mem_map.mpr ⟨entry, hentry, rfl⟩

/-- Wherever the cached position would be used, searching again finds the same. -/
def Cached (tmpl : Bytes) (close : Option Nat) (pos : Nat) : Prop :=
  ∀ opened, pos ≤ opened → isBehind close opened = false → Scanning.findFrom closeBrace tmpl (opened + 1) = close

theorem Cached.found (h : Cached tmpl close pos) {opened : Nat} (hle : pos ≤ opened) :
    (if isBehind close opened then Scanning.findFrom closeBrace tmpl (opened + 1) else close) =
      Scanning.findFrom closeBrace tmpl (opened + 1) := by
  split_ifs with hbehind
  · rfl
  · exact (h opened hle (Bool.not_eq_true _ ▸ hbehind)).symm

theorem isBehind_some {k opened : Nat} : isBehind (some k) opened = false ↔ opened < k := by
  rw [isBehind, decide_eq_false_iff_not, Nat.not_le]

theorem cached_start : Cached tmpl (some 0) 0 :=
  fun opened _ hbehind => absurd (isBehind_some.mp hbehind) (Nat.not_lt_zero opened)

theorem cached_after {opened k : Nat} (h : Scanning.findFrom closeBrace tmpl (opened + 1) = some k) {later : Nat}
    (hle : opened < later) : Cached tmpl (some k) later := by
  intro opened' hlater hbehind
  have hlt := isBehind_some.mp hbehind
  exact Scanning.findFrom_again h (by omega) (by omega)

/-! ## The loop -/

/-- What holds of the variables at the start of a round. -/
structure Scanned (maxStringSize : Nat) (tmpl : Bytes) (entries : List (Bytes × Value)) (st : Scan) : Prop where
  cached : Cached tmpl st.close st.pos
  fits : st.result.length ≤ maxStringSize
  valid : st.dict.Valid
  entries_eq : st.dict.entries = entries

theorem drop_of_drop {k : Nat} (h : tmpl.drop pos = before ++ rest) (hk : k = pos + before.length) : tmpl.drop k = rest := by
  rw [hk, ← List.drop_drop, h, List.drop_left]

theorem slice_of_drop {k : Nat} (h : tmpl.drop pos = before ++ rest) (hk : k = pos + before.length) :
    slice tmpl pos k = before := by
  rw [slice, h, hk, Nat.add_sub_cancel_left, List.take_left]

theorem expand_done (h : tmpl.length ≤ pos) : result ++ expand lookup (tmpl.drop pos) = result := by
  rw [List.drop_eq_nil_of_le h, expand, List.append_nil]

theorem loop_eq {entries : List (Bytes × Value)} {st : Scan} (hst : Scanned maxStringSize tmpl entries st)
    (hrounds : tmpl.length - st.pos ≤ rounds) :
    loop maxStringSize display tmpl (entries.map fun entry => entry.1.length) rounds st =
      bounded maxStringSize (st.result ++ expand (textOfKey display entries) (tmpl.drop st.pos)) := by
  induction rounds generalizing st with
  | zero => rw [loop, expand_done (by omega), bounded, if_pos hst.fits]
  | succ rounds ih =>
    rw [loop]
    split_ifs with hmore
    · obtain ⟨hcached, hfits, hvalid, hentries⟩ := hst
      rw [round]
      rcases Scanning.findFrom_cases openBrace tmpl st.pos with ⟨before, rest, hdrop, hfree, hopen⟩ | ⟨hfree, hopen⟩
      · -- an opening brace, with text in front of it
        have hat : tmpl.drop (st.pos + before.length) = openBrace :: rest := drop_of_drop hdrop rfl
        have hbehind : tmpl.drop (st.pos + before.length + 1) = rest := by
          rw [← List.drop_drop, hat, List.drop_one, List.tail_cons]
        simp only [hopen, hcached.found (Nat.le_add_right _ _), slice_of_drop hdrop rfl, bind_assoc]
        rw [hdrop, expand_append hfree, ← List.append_assoc]
        refine appendBounded_bind hfits fun hfits' => ?_
        rcases Scanning.findFrom_cases closeBrace tmpl (st.pos + before.length + 1) with
          ⟨name, after, hname, hclosed, hclose⟩ | ⟨hunclosed, hclose⟩
        · -- a closing brace: the text between them may be a key
          obtain ⟨hfind, hfindEntries, hfindValid⟩ := findName_spec hvalid name
          have hplace : tmpl.drop (st.pos + before.length + 1 + name.length) = closeBrace :: after := drop_of_drop hname rfl
          have hafter : tmpl.drop (st.pos + before.length + 1 + name.length + 1) = after := by
            rw [← List.drop_drop, hplace, List.drop_one, List.tail_cons]
          have hcached' : ∀ later, st.pos + before.length < later →
              Cached tmpl (some (st.pos + before.length + 1 + name.length)) later := fun later => cached_after hclose
          simp only [hclose, slice_of_drop hname rfl]
          rw [hbehind] at hname
          rw [hentries] at hfind hfindEntries hfindValid
          rw [hname, expand_open hclosed, textOfKey, ← hfind]
          generalize findName (entries.map fun entry => entry.1.length) st.dict name = outcome at hfindEntries hfindValid
          obtain ⟨found, dict'⟩ := outcome
          cases found with
          | none =>
            -- not a key: the brace stands for itself, and the scan goes on behind it
            simp only [bind_assoc, pure_bind, Option.map_none]
            rw [List.append_cons (st.result ++ before) openBrace]
            refine appendBounded_bind hfits' fun hfits'' => ?_
            rw [ih ⟨hcached' (st.pos + before.length + 1) (by omega), hfits'', hfindValid, hfindEntries⟩ (by dsimp only; omega)]
            simp only [hbehind, hname]
          | some value =>
            simp only [bind_assoc, pure_bind, Option.map_some]
            rw [← List.append_assoc]
            refine appendBounded_bind hfits' fun hfits'' => ?_
            rw [ih ⟨hcached' (st.pos + before.length + 1 + name.length + 1) (by omega), hfits'', hfindValid, hfindEntries⟩
              (by dsimp only; omega)]
            simp only [hafter]
        · -- no closing brace is left, so nothing else is a placeholder
          rw [hbehind] at hunclosed
          have hrest : expand (textOfKey display entries) (openBrace :: rest) = openBrace :: rest := by
            rw [expand_open_unclosed (Scanning.splitFirst_of_notMem hunclosed), expand_of_no_close hunclosed]
          simp only [hclose, hat, bind_assoc, pure_bind]
          rw [bind_pure, appendBounded_eq hfits', hrest]
      · -- no opening brace is left
        simp only [hopen, bind_assoc, pure_bind]
        rw [bind_pure, appendBounded_eq hfits, expand_of_no_open hfree]
    · rw [expand_done (by omega), bounded, if_pos hst.fits]

/-! ## Expansion -/

theorem templateImpl_eq {dict : DictionaryValue Value} (hvalid : dict.Valid) :
    templateImpl maxStringSize display tmpl dict =
      bounded maxStringSize (expand (textOfKey display dict.entries) tmpl) :=
  loop_eq ⟨cached_start, Nat.zero_le _, hvalid, rfl⟩ (Nat.sub_le _ _)

theorem textOfKey_perm {entries entries' : List (Bytes × Value)} (hnodup : (OrderedMap.keys entries).Nodup)
    (hperm : entries.Perm entries') : textOfKey display entries = textOfKey display entries' := by
  funext key
  have hnodup' : (OrderedMap.keys entries').Nodup := (hperm.map Prod.fst).nodup_iff.mp hnodup
  have hlookup : OrderedMap.lookup key entries = OrderedMap.lookup key entries' := by
    cases hfind : OrderedMap.lookup key entries with
    | none =>
      rw [OrderedMap.lookup_eq_none] at hfind
      exact (OrderedMap.lookup_eq_none.mpr fun hmem => hfind ((hperm.map Prod.fst).mem_iff.mpr hmem)).symm
    | some value =>
      exact (OrderedMap.lookup_of_mem hnodup' (hperm.mem_iff.mp (OrderedMap.mem_of_lookup hfind))).symm
  rw [textOfKey, textOfKey, hlookup]

end Laws

end Luma.Template
