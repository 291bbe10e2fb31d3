-- SUMMARY: Percent encoding and query strings: decoding gives back what was encoded, and never reads past its input.
import Luma.Library.Scanning
import Luma.Stdlib.Base64
import Luma.Value.DictionaryLaws

/-! # Query strings

A string is percent-encoded byte by byte. A query string is the encoded keys and values of
a dictionary, and parsing it splits at the separators that no encoded text has. -/

namespace Luma.QueryString

open Codec OrderedMap

/-- What the codec throws. -/
inductive Fault where
  | lengthError (message : String)
  /-- A read at or behind the end of the input. -/
  | outOfRange
  | internal (message : ErrorMessage)

/-! ## Percent encoding -/

def percent : UInt8 := 37
def plus : UInt8 := 43
def space : UInt8 := 32
def ampersand : UInt8 := 38
def equalsSign : UInt8 := 61

def isUnreserved (c : UInt8) : Bool :=
  (65 ≤ c && c ≤ 90) || (97 ≤ c && c ≤ 122) || (48 ≤ c && c ≤ 57) || c = 45 || c = 95 || c = 46 || c = 126

/-- `k_url_encoding_expansion`. -/
def urlEncodingExpansion : Nat := 3

def toHexDigitUpper (nibble : UInt8) : UInt8 := if nibble &&& 15 < 10 then 48 + (nibble &&& 15) else 55 + (nibble &&& 15)

def fromHexDigit (c : UInt8) : Option UInt8 :=
  if 48 ≤ c && c ≤ 57 then some (c - 48)
  else if 65 ≤ c && c ≤ 70 then some (c - 55)
  else if 97 ≤ c && c ≤ 102 then some (c - 87)
  else none

def encodeByte (c : UInt8) : Bytes :=
  if isUnreserved c then [c] else [percent, toHexDigitUpper (c >>> 4), toHexDigitUpper (c &&& 15)]

def encodeError : String := "url_encode: input exceeds maximum string size"

def urlEncode (maxStringSize : Nat) (input : Bytes) : Except Fault Bytes :=
  if input.length > maxStringSize / urlEncodingExpansion then .error (.lengthError encodeError)
  else .ok (input.flatMap encodeByte)

/-- `input[i]`. -/
def read (input : Bytes) (i : Nat) : Except Fault UInt8 :=
  match input[i]? with
  | some c => .ok c
  | none => .error .outOfRange

/-- The loop of `url_decode` from position `i` on. -/
def decodeFrom (input : Bytes) (i : Nat) (out : Bytes) : Except Fault (Option Bytes) :=
  if i < input.length then do
    let c ← read input i
    if c = percent then
      if i + 2 ≥ input.length then return none
      else
        let hi ← read input (i + 1)
        let lo ← read input (i + 2)
        match fromHexDigit hi, fromHexDigit lo with
        | some hi, some lo => decodeFrom input (i + 3) (out ++ [(hi <<< 4) ||| lo])
        | _, _ => return none
    else if c = plus then decodeFrom input (i + 1) (out ++ [space])
    else decodeFrom input (i + 1) (out ++ [c])
  else return some out
termination_by input.length - i

def urlDecode (maxStringSize : Nat) (input : Bytes) : Except Fault (Option Bytes) :=
  if input.length > maxStringSize then return none else decodeFrom input 0 []

/-! ## Query strings -/

/-- One `key=value` of `parse_query_string`; what cannot be decoded is empty. -/
def parsePair (maxStringSize : Nat) (pair : Bytes) : Except Fault (Bytes × Bytes) :=
  if equalsSign ∈ pair then do
    let key ← urlDecode maxStringSize (pair.takeWhile (· ≠ equalsSign))
    let value ← urlDecode maxStringSize ((pair.dropWhile (· ≠ equalsSign)).tail)
    return (key.getD [], value.getD [])
  else do
    let key ← urlDecode maxStringSize pair
    return (key.getD [], [])

/-- The loop of `parse_query_string` over what is left of the text. -/
def parseFrom (maxStringSize : Nat) (dict : DictionaryValue Value) (text : Bytes) : Except Fault (DictionaryValue Value) :=
  if text = [] then return dict
  else do
    let pair ← parsePair maxStringSize (text.takeWhile (· ≠ ampersand))
    match dict.set pair.1 (.string pair.2) with
    | .ok dict => parseFrom maxStringSize dict (text.dropWhile (· ≠ ampersand)).tail
    | .error message => .error (.internal message)
termination_by text.length
decreasing_by
  have hle : (text.dropWhile (· ≠ ampersand)).length ≤ text.length := (List.dropWhile_sublist _).length_le
  have hpos : 0 < text.length := List.length_pos_iff.mpr (by assumption)
  rw [List.length_tail]
  omega

def parseQueryString (maxStringSize : Nat) (text : Bytes) : Except Fault (DictionaryValue Value) :=
  if text = [] then return {} else parseFrom maxStringSize (DictionaryValue.rebuildIndex {}) text

/-- The loop of `Http.build_query`, whose values are formatted by `toText`. -/
def buildFrom (maxStringSize : Nat) (toText : Value → Bytes) : Bytes → List (Bytes × Value) → Except Fault Bytes
  | text, [] => return text
  | text, entry :: entries => do
    let key ← urlEncode maxStringSize entry.1
    let value ← urlEncode maxStringSize (toText entry.2)
    buildFrom maxStringSize toText ((if text = [] then text else text ++ [ampersand]) ++ (key ++ equalsSign :: value)) entries

def buildQuery (maxStringSize : Nat) (toText : Value → Bytes) (dict : DictionaryValue Value) : Except Fault Bytes :=
  buildFrom maxStringSize toText [] dict.entries

/-- `Value::to_string`, of which the text of a string is itself. -/
def textOfValue (display : Value → Bytes) : Value → Bytes
  | .string s => s
  | value => display value

/-! ## Decoding -/

/-- What is decoded of the rest of an input. -/
def decodeBytes : Bytes → Option Bytes
  | [] => some []
  | c :: rest =>
    if c = percent then
      match rest with
      | hi :: lo :: rest =>
        match fromHexDigit hi, fromHexDigit lo with
        | some hi, some lo => (decodeBytes rest).map (((hi <<< 4) ||| lo) :: ·)
        | _, _ => none
      | _ => none
    else if c = plus then (decodeBytes rest).map (space :: ·)
    else (decodeBytes rest).map (c :: ·)

section Codec

variable {input s text out : Bytes} {i maxStringSize : Nat} {b c : UInt8}

theorem read_of_drop {rest : Bytes} (h : input.drop i = c :: rest) : read input i = .ok c := by
  have hget : input[i]? = some c := by rw [← List.head?_drop, h, List.head?_cons]
  rw [read, hget]

theorem drop_succ_of_drop {rest : Bytes} (h : input.drop i = c :: rest) : input.drop (i + 1) = rest := by
  rw [← List.drop_drop, h, List.drop_one, List.tail_cons]

/-- A byte that starts no escape is decoded by itself. -/
theorem decodeBytes_cons {rest : Bytes} (hc : c ≠ percent) :
    decodeBytes (c :: rest) = if c = plus then (decodeBytes rest).map (space :: ·) else (decodeBytes rest).map (c :: ·) := by
  rw [decodeBytes.eq_def]
  simp only [if_neg hc]

theorem length_of_drop {rest : Bytes} (h : input.drop i = c :: rest) : input.length = i + (rest.length + 1) := by
  have hlength := congrArg List.length h
  rw [List.length_drop, List.length_cons] at hlength
  omega

/-- The loop decodes what is left of the input, and reads nothing else. -/
theorem decodeFrom_eq : decodeFrom input i out = .ok ((decodeBytes (input.drop i)).map (out ++ ·)) := by
  induction hleft : input.drop i using decodeBytes.induct generalizing i out with
  | case1 =>
    have hend : ¬i < input.length := Nat.not_lt.mpr (List.drop_eq_nil_iff.mp hleft)
    rw [decodeFrom, if_neg hend, decodeBytes, Option.map_some, List.append_nil]
    rfl
  | case2 hi lo rest h l hl hh ih =>
    have hlength := length_of_drop hleft
    have hfirst := drop_succ_of_drop hleft
    have hsecond := drop_succ_of_drop hfirst
    have hstart : ¬i + 2 ≥ input.length := by simp only [List.length_cons] at hlength; omega
    rw [decodeFrom, if_pos (by omega), read_of_drop hleft]
    simp only [bind, Except.bind, if_true, if_neg hstart, read_of_drop hfirst, read_of_drop hsecond, hh, hl]
    rw [ih (drop_succ_of_drop hsecond), decodeBytes, if_pos rfl]
    simp only [hh, hl, Option.map_map, Function.comp_def, List.append_assoc, List.cons_append, List.nil_append]
  | case3 hi lo rest hbad =>
    have hlength := length_of_drop hleft
    have hfirst := drop_succ_of_drop hleft
    have hsecond := drop_succ_of_drop hfirst
    have hstart : ¬i + 2 ≥ input.length := by simp only [List.length_cons] at hlength; omega
    rw [decodeFrom, if_pos (by omega), read_of_drop hleft]
    simp only [bind, Except.bind, if_true, if_neg hstart, read_of_drop hfirst, read_of_drop hsecond]
    rw [decodeBytes, if_pos rfl]
    cases hh : fromHexDigit hi with
    | none => rfl
    | some h =>
      cases hl : fromHexDigit lo with
      | none => rfl
      | some l => exact (hbad h l hh hl).elim
  | case4 rest hshort =>
    have hlength := length_of_drop hleft
    have hend : i + 2 ≥ input.length := by
      match rest, hshort with
      | [], _ => rw [List.length_nil] at hlength; omega
      | [_], _ => rw [List.length_singleton] at hlength; omega
      | hi :: lo :: rest, hshort => exact (hshort hi lo rest rfl).elim
    rw [decodeFrom, if_pos (by omega), read_of_drop hleft]
    simp only [bind, Except.bind, if_true, if_pos hend]
    rw [decodeBytes, if_pos rfl]
    · rfl
    · exact hshort
  | case5 rest hplus ih =>
    have hlength := length_of_drop hleft
    rw [decodeFrom, if_pos (by omega), read_of_drop hleft]
    simp only [bind, Except.bind, if_neg hplus, if_true]
    rw [ih (drop_succ_of_drop hleft), decodeBytes_cons hplus, if_pos rfl]
    simp only [Option.map_map, Function.comp_def, List.append_assoc, List.cons_append, List.nil_append]
  | case6 c rest hpercent hplus ih =>
    have hlength := length_of_drop hleft
    rw [decodeFrom, if_pos (by omega), read_of_drop hleft]
    simp only [bind, Except.bind, if_neg hpercent, if_neg hplus]
    rw [ih (drop_succ_of_drop hleft), decodeBytes_cons hpercent, if_neg hplus]
    simp only [Option.map_map, Function.comp_def, List.append_assoc, List.cons_append, List.nil_append]

theorem urlDecode_eq :
    urlDecode maxStringSize input = .ok (if input.length > maxStringSize then none else decodeBytes input) := by
  rw [urlDecode]
  split
  · rfl
  · rw [decodeFrom_eq, List.drop_zero]
    simp only [List.nil_append, Option.map_id']

/-! ## Encoded bytes -/

/-- A byte and its encoding, which has no separator. -/
structure Encodes (c : UInt8) : Prop where
  unreserved : isUnreserved c = true → c ≠ percent ∧ c ≠ plus ∧ c ≠ ampersand ∧ c ≠ equalsSign
  hi : fromHexDigit (toHexDigitUpper (c >>> 4)) = some (c >>> 4)
  lo : fromHexDigit (toHexDigitUpper (c &&& 15)) = some (c &&& 15)
  nibbles : ((c >>> 4) <<< 4) ||| (c &&& 15) = c
  separators : ∀ d ∈ encodeByte c, d ≠ ampersand ∧ d ≠ equalsSign

theorem encodes (c : UInt8) : Encodes c := by
  refine Base64.forall_byte (p := Encodes) (fun n hn => ?_) c
  refine ⟨?_, ?_, ?_, ?_, ?_⟩
  · revert n; decide +kernel
  · revert n; decide +kernel
  · revert n; decide +kernel
  · revert n; decide +kernel
  · intro d hd
    have hall : ∀ n < 256, (encodeByte (UInt8.ofNat n)).all
        (fun d => decide (d ≠ ampersand) && decide (d ≠ equalsSign)) = true := by
      decide +kernel
    have hd' := List.all_eq_true.mp (hall n hn) d hd
    rw [Bool.and_eq_true] at hd'
    exact ⟨of_decide_eq_true hd'.1, of_decide_eq_true hd'.2⟩

theorem decodeBytes_encodeByte : decodeBytes (encodeByte c ++ text) = (decodeBytes text).map (c :: ·) := by
  obtain ⟨hunreserved, hhi, hlo, hnibbles, -⟩ := encodes c
  rw [encodeByte]
  split
  next h =>
    obtain ⟨hpercent, hplus, -⟩ := hunreserved h
    rw [List.cons_append, List.nil_append, decodeBytes_cons hpercent, if_neg hplus]
  next h =>
    rw [List.cons_append, List.cons_append, List.cons_append, List.nil_append, decodeBytes, if_pos rfl]
    simp only [hhi, hlo, hnibbles]

theorem decodeBytes_encoded : decodeBytes (s.flatMap encodeByte) = some s := by
  induction s with
  | nil => rfl
  | cons c s ih => rw [List.flatMap_cons, decodeBytes_encodeByte, ih, Option.map_some]

theorem encoded_length : (s.flatMap encodeByte).length ≤ urlEncodingExpansion * s.length := by
  induction s with
  | nil => exact Nat.le_refl _
  | cons c s ih =>
    have hbyte : (encodeByte c).length ≤ urlEncodingExpansion := by
      rw [encodeByte]
      split
      · exact Nat.succ_le_succ (Nat.zero_le 2)
      · exact Nat.le_refl 3
    rw [List.flatMap_cons, List.length_append, List.length_cons, Nat.mul_succ]
    omega

theorem encoded_separators {d : UInt8} (hd : d ∈ s.flatMap encodeByte) : d ≠ ampersand ∧ d ≠ equalsSign := by
  obtain ⟨c, -, hc⟩ := List.mem_flatMap.mp hd
  exact (encodes c).separators d hc

/-- What is encoded is decoded to what it was. -/
theorem urlDecode_encoded (hlength : s.length ≤ maxStringSize / urlEncodingExpansion) :
    urlDecode maxStringSize (s.flatMap encodeByte) = .ok (some s) := by
  have hencoded : (s.flatMap encodeByte).length ≤ urlEncodingExpansion * s.length := encoded_length
  have hlimit := Nat.mul_le_of_le_div _ _ _ hlength
  rw [urlDecode_eq, if_neg (by rw [Nat.mul_comm] at hlimit; omega), decodeBytes_encoded]

end Codec

/-! ## Texts of entries -/

def pairText (entry : Bytes × Bytes) : Bytes := entry.1.flatMap encodeByte ++ equalsSign :: entry.2.flatMap encodeByte

def queryText : List (Bytes × Bytes) → Bytes
  | [] => []
  | [entry] => pairText entry
  | entry :: entries => pairText entry ++ ampersand :: queryText entries

theorem queryText_singleton {entry : Bytes × Bytes} : queryText [entry] = pairText entry := rfl

theorem queryText_cons_cons {entry entry' : Bytes × Bytes} {entries : List (Bytes × Bytes)} :
    queryText (entry :: entry' :: entries) = pairText entry ++ ampersand :: queryText (entry' :: entries) := rfl

/-- The entries of a dictionary of strings. -/
def stringEntries (entries : List (Bytes × Bytes)) : List (Bytes × Value) :=
  entries.map fun entry => (entry.1, .string entry.2)

/-- A text that is not too long to be encoded. -/
def Encodable (maxStringSize : Nat) (s : Bytes) : Prop := s.length ≤ maxStringSize / urlEncodingExpansion

instance {maxStringSize : Nat} {s : Bytes} : Decidable (Encodable maxStringSize s) := inferInstanceAs (Decidable (_ ≤ _))

section Queries

variable {maxStringSize : Nat} {display : Value → Bytes} {text s : Bytes} {entry : Bytes × Bytes}
  {entries : List (Bytes × Bytes)} {dict : DictionaryValue Value}

theorem urlEncode_ok (h : Encodable maxStringSize s) : urlEncode maxStringSize s = .ok (s.flatMap encodeByte) :=
  if_neg (Nat.not_lt.mpr h)

theorem urlEncode_error (h : ¬Encodable maxStringSize s) : urlEncode maxStringSize s = .error (.lengthError encodeError) :=
  if_pos (Nat.lt_of_not_le h)

theorem pairText_ne_nil : pairText entry ≠ [] := List.append_ne_nil_of_right_ne_nil _ (List.cons_ne_nil _ _)

theorem queryText_ne_nil : queryText (entry :: entries) ≠ [] := by
  cases entries with
  | nil => exact pairText_ne_nil
  | cons entry' entries => exact List.append_ne_nil_of_right_ne_nil _ (List.cons_ne_nil _ _)

theorem pairText_free : ∀ c ∈ pairText entry, decide (c ≠ ampersand) = true := by
  intro c hc
  rw [decide_eq_true_eq]
  rcases List.mem_append.mp hc with hc | hc
  · exact (encoded_separators hc).1
  · rcases List.mem_cons.mp hc with rfl | hc
    · decide
    · exact (encoded_separators hc).1

/-- Building writes the entries one after the other. -/
theorem buildFrom_ok (h : ∀ entry ∈ entries, Encodable maxStringSize entry.1 ∧ Encodable maxStringSize entry.2) :
    buildFrom maxStringSize (textOfValue display) text (stringEntries entries) =
      .ok (if entries = [] then text else if text = [] then queryText entries else text ++ ampersand :: queryText entries) := by
  induction entries generalizing text with
  | nil =>
    rw [if_pos rfl]
    rfl
  | cons entry entries ih =>
    obtain ⟨hkey, hvalue⟩ := h entry List.mem_cons_self
    have hshort : ∀ entry ∈ entries, Encodable maxStringSize entry.1 ∧ Encodable maxStringSize entry.2 :=
      fun entry hentry => h entry (List.mem_cons_of_mem _ hentry)
    rw [stringEntries, List.map_cons, buildFrom, ← stringEntries]
    simp only [textOfValue, urlEncode_ok hkey, urlEncode_ok hvalue, bind, Except.bind]
    have hpair : entry.1.flatMap encodeByte ++ equalsSign :: entry.2.flatMap encodeByte = pairText entry := rfl
    rw [hpair, ih hshort, if_neg (List.cons_ne_nil _ _),
      if_neg (c := _ ++ pairText entry = []) (List.append_ne_nil_of_right_ne_nil _ pairText_ne_nil)]
    cases entries with
    | nil => by_cases htext : text = [] <;> simp [htext, queryText]
    | cons entry' entries => by_cases htext : text = [] <;> simp [htext, queryText]

/-- A text that is too long is refused. -/
theorem buildFrom_error (h : ¬∀ entry ∈ entries, Encodable maxStringSize entry.1 ∧ Encodable maxStringSize entry.2) :
    buildFrom maxStringSize (textOfValue display) text (stringEntries entries) = .error (.lengthError encodeError) := by
  induction entries generalizing text with
  | nil => exact absurd (fun entry hentry => absurd hentry List.not_mem_nil) h
  | cons entry entries ih =>
    rw [stringEntries, List.map_cons, buildFrom, ← stringEntries]
    by_cases hkey : Encodable maxStringSize entry.1
    · by_cases hvalue : Encodable maxStringSize entry.2
      · simp only [textOfValue, urlEncode_ok hkey, urlEncode_ok hvalue, bind, Except.bind]
        refine ih fun hall => h fun other hother => ?_
        rcases List.mem_cons.mp hother with rfl | hother
        · exact ⟨hkey, hvalue⟩
        · exact hall other hother
      · simp only [textOfValue, urlEncode_ok hkey, urlEncode_error hvalue, bind, Except.bind]
    · simp only [urlEncode_error hkey, bind, Except.bind]

/-- One entry is read back. -/
theorem parsePair_pairText (hkey : Encodable maxStringSize entry.1) (hvalue : Encodable maxStringSize entry.2) :
    parsePair maxStringSize (pairText entry) = .ok entry := by
  have hmem : equalsSign ∈ pairText entry := List.mem_append_right _ List.mem_cons_self
  have hfree : ∀ c ∈ entry.1.flatMap encodeByte, decide (c ≠ equalsSign) = true :=
    fun c hc => decide_eq_true (encoded_separators hc).2
  have hstop : ∀ c ∈ (equalsSign :: entry.2.flatMap encodeByte).head?, decide (c ≠ equalsSign) = false := by
    rintro c hc
    rw [List.head?_cons, Option.mem_some] at hc
    exact decide_eq_false (not_not.mpr hc.symm)
  rw [parsePair, if_pos hmem, pairText, Scanning.takeWhile_run hfree hstop, Scanning.dropWhile_run hfree hstop, List.tail_cons,
    urlDecode_encoded hkey, urlDecode_encoded hvalue]
  rfl

/-- Parsing sets the entries one after the other. -/
theorem parseFrom_queryText (hvalid : dict.Valid)
    (h : ∀ entry ∈ entries, Encodable maxStringSize entry.1 ∧ Encodable maxStringSize entry.2) :
    ∃ dict', parseFrom maxStringSize dict (queryText entries) = .ok dict' ∧
      dict'.entries = insertAll dict.entries (stringEntries entries) := by
  induction entries generalizing dict with
  | nil =>
    refine ⟨dict, ?_, rfl⟩
    rw [parseFrom, queryText, if_pos rfl]
    rfl
  | cons entry entries ih =>
    obtain ⟨hkey, hvalue⟩ := h entry List.mem_cons_self
    obtain ⟨dict', hset, hentries, hvalid'⟩ := DictionaryValue.set_spec hvalid entry.1 (.string entry.2)
    obtain ⟨last, hlast, heq⟩ := ih hvalid' fun entry hentry => h entry (List.mem_cons_of_mem _ hentry)
    rw [hentries] at heq
    refine ⟨last, ?_, heq⟩
    rw [parseFrom, if_neg queryText_ne_nil]
    have hfront : (queryText (entry :: entries)).takeWhile (· ≠ ampersand) = pairText entry ∧
        ((queryText (entry :: entries)).dropWhile (· ≠ ampersand)).tail = queryText entries := by
      cases entries with
      | nil =>
        have htake : (pairText entry ++ []).takeWhile (· ≠ ampersand) = pairText entry :=
          Scanning.takeWhile_run pairText_free (by rintro c hc; cases hc)
        have hdrop : (pairText entry ++ []).dropWhile (· ≠ ampersand) = [] :=
          Scanning.dropWhile_run pairText_free (by rintro c hc; cases hc)
        rw [List.append_nil] at htake hdrop
        rw [queryText_singleton]
        exact ⟨htake, by rw [hdrop]; rfl⟩
      | cons entry' entries =>
        have hstop : ∀ c ∈ (ampersand :: queryText (entry' :: entries)).head?, decide (c ≠ ampersand) = false := by
          rintro c hc
          rw [List.head?_cons, Option.mem_some] at hc
          exact decide_eq_false (not_not.mpr hc.symm)
        rw [queryText_cons_cons]
        exact ⟨Scanning.takeWhile_run pairText_free hstop, by
          rw [Scanning.dropWhile_run pairText_free hstop, List.tail_cons]⟩
    rw [hfront.1, hfront.2, parsePair_pairText hkey hvalue]
    simp only [bind, Except.bind, hset]
    exact hlast

/-- Decoding is total, undoes encoding wherever a text is not too long to be encoded, and
    parsing gives back the entries of a dictionary of such strings. -/
theorem query_round_trip (maxStringSize : Nat) (display : Value → Bytes) :
    (∀ s, if Encodable maxStringSize s then
        ∃ encoded, urlEncode maxStringSize s = .ok encoded ∧ urlDecode maxStringSize encoded = .ok (some s)
      else urlEncode maxStringSize s = .error (.lengthError encodeError)) ∧
    (∀ input, ∃ decoded, urlDecode maxStringSize input = .ok decoded) ∧
    ∀ (dict : DictionaryValue Value) entries, dict.entries = stringEntries entries → (keys dict.entries).Nodup →
      if ∀ entry ∈ entries, Encodable maxStringSize entry.1 ∧ Encodable maxStringSize entry.2 then
        ∃ text dict', buildQuery maxStringSize (textOfValue display) dict = .ok text ∧
          parseQueryString maxStringSize text = .ok dict' ∧ dict'.entries = dict.entries
      else buildQuery maxStringSize (textOfValue display) dict = .error (.lengthError encodeError) := by
  refine ⟨fun s => ?_, fun input => ⟨_, urlDecode_eq⟩, fun dict entries hentries hnodup => ?_⟩
  · split
    next h => exact ⟨_, urlEncode_ok h, urlDecode_encoded h⟩
    next h => exact urlEncode_error h
  · rw [buildQuery, hentries]
    split
    next h =>
      rw [buildFrom_ok h]
      cases entries with
      | nil => exact ⟨[], {}, rfl, rfl, rfl⟩
      | cons entry entries =>
        have hvalid : (DictionaryValue.rebuildIndex { entries := ([] : List (Bytes × Value)) }).Valid :=
          DictionaryValue.rebuildIndex_valid List.nodup_nil
        obtain ⟨dict', hparse, hsame⟩ := parseFrom_queryText hvalid h
        refine ⟨_, dict', rfl, ?_, ?_⟩
        · rw [if_neg (List.cons_ne_nil _ _), if_pos rfl, parseQueryString, if_neg queryText_ne_nil]
          exact hparse
        · rw [hentries] at hnodup
          rw [hsame]
          exact insertAll_of_nodup hnodup
    next h => exact buildFrom_error h

/-- A dictionary with an empty key, and separators in a value. -/
theorem query_round_trip_empty_key :
    ∃ text dict', buildQuery 268435456 (textOfValue fun _ => []) { entries := stringEntries [([], [38, 61]), ([37], [])] } = .ok text ∧
      parseQueryString 268435456 text = .ok dict' ∧ dict'.entries = stringEntries [([], [38, 61]), ([37], [])] := by
  have hround := (query_round_trip 268435456 fun _ => []).2.2 { entries := stringEntries [([], [38, 61]), ([37], [])] }
    [([], [38, 61]), ([37], [])] rfl (by decide)
  rw [if_pos (by decide)] at hround
  exact hround

/-- A string of more than a third of the largest size is not encoded. -/
theorem encode_refuses : urlEncode 268435456 (List.replicate 89478486 32) = .error (.lengthError encodeError) := by
  refine urlEncode_error ?_
  rw [Encodable, List.length_replicate]
  decide

end Queries

end Luma.QueryString
