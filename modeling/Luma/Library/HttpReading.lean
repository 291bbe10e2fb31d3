-- SUMMARY: At the front of a text there is at most one HTTP/1.1 request.
import Luma.Library.HttpGrammar
import Mathlib.Data.List.Forall2

/-! # Reading requests

Each rule of the grammar has one reading, by the character that ends it: a space in a request
line, a colon behind a name, a line break behind a line. Bodies end where the fields or the
chunks say. -/

namespace HttpGrammar

open Scanning

/-! ## Characters -/

section Characters

variable {c : UInt8} {s : Octets} {p q : UInt8 → Bool}

/-- What a host with a port consists of. -/
def isAuthorityChar (c : UInt8) : Bool := isRegNameChar c || c = 37 || c = 58 || c = 91 || c = 93

theorem isAuthorityChar_of_isRegNameChar (h : isRegNameChar c = true) : isAuthorityChar c = true := by
  simp only [isAuthorityChar, h, Bool.true_or]

theorem isUriChar_of_isAuthorityChar (h : isAuthorityChar c = true) : isUriChar c = true := by
  simp only [isAuthorityChar, isRegNameChar, Bool.or_eq_true] at h
  simp only [isUriChar, isQueryChar, isPathChar, isPchar, Bool.or_eq_true]
  tauto

theorem isUriChar_of_isPathChar (h : isPathChar c = true) : isUriChar c = true := by
  simp only [isUriChar, isQueryChar, Bool.or_eq_true]
  tauto

theorem isUriChar_of_isQueryChar (h : isQueryChar c = true) : isUriChar c = true := by
  simp only [isUriChar, Bool.or_eq_true]
  tauto

theorem isRegNameChar_of_isDigit (h : isDigit c = true) : isRegNameChar c = true := by
  simp only [isRegNameChar, isUnreserved, Bool.or_eq_true]
  tauto

theorem isRegNameChar_of_isHexDigit (h : isHexDigit c = true) : isRegNameChar c = true := by
  simp only [isHexDigit, Bool.or_eq_true, Bool.and_eq_true, decide_eq_true_eq] at h
  simp only [isRegNameChar, isUnreserved, isAlpha, Bool.or_eq_true, Bool.and_eq_true, decide_eq_true_eq]
  rcases h with (h | h) | h
  · tauto
  · exact .inl (.inl (.inl (.inl (.inl (.inl (.inl ⟨h.1, UInt8.le_trans h.2 (by decide)⟩))))))
  · exact .inl (.inl (.inl (.inl (.inl (.inl (.inr ⟨h.1, UInt8.le_trans h.2 (by decide)⟩))))))

/-- What holds of the characters, of a percent sign and of hexadecimal digits holds of all there is. -/
theorem Encoded.all (h : Encoded p s) (hp : ∀ c, p c = true → q c = true) (hpercent : q 37 = true)
    (hhex : ∀ c, isHexDigit c = true → q c = true) : ∀ c ∈ s, q c = true := by
  induction h with
  | nil => exact fun _ hc => absurd hc List.not_mem_nil
  | char hc _ ih => exact List.forall_mem_cons.mpr ⟨hp _ hc, ih⟩
  | percent ha hb _ ih =>
    exact List.forall_mem_cons.mpr ⟨hpercent, List.forall_mem_cons.mpr ⟨hhex _ ha, List.forall_mem_cons.mpr ⟨hhex _ hb, ih⟩⟩⟩

/-- A character that a kind leaves out does not occur. -/
theorem notMem_of_all (h : ∀ c ∈ s, q c = true) (hc : q c = false) : c ∉ s := by
  intro hmem
  rw [h c hmem] at hc
  cases hc

end Characters

/-! ## Hosts -/

section Hosts

variable {s t : Octets} {mixed : Bool} {n : Nat} {port : Option Nat} {authority authority' : Authority}

/-- What an address in brackets consists of. -/
def isAddressChar (c : UInt8) : Bool := isRegNameChar c || c = 58

theorem isAddressChar_of_isRegNameChar {c : UInt8} (h : isRegNameChar c = true) : isAddressChar c = true := by
  rw [isAddressChar, h, Bool.true_or]

theorem HexDigits.address (h : HexDigits s) : ∀ c ∈ s, isAddressChar c = true :=
  fun c hc => isAddressChar_of_isRegNameChar (isRegNameChar_of_isHexDigit (h.2 c hc))

theorem DecOctet.address (h : DecOctet s) : ∀ c ∈ s, isAddressChar c = true :=
  fun c hc => isAddressChar_of_isRegNameChar (isRegNameChar_of_isDigit (h.1.2 c hc))

theorem IPv4Address.address (h : IPv4Address s) : ∀ c ∈ s, isAddressChar c = true := by
  obtain ⟨a, b, c, d, rfl, ha, hb, hc, hd⟩ := h
  have hdot : isAddressChar 46 = true := rfl
  refine List.forall_mem_append.mpr ⟨ha.address, List.forall_mem_cons.mpr ⟨hdot, ?_⟩⟩
  refine List.forall_mem_append.mpr ⟨hb.address, List.forall_mem_cons.mpr ⟨hdot, ?_⟩⟩
  exact List.forall_mem_append.mpr ⟨hc.address, List.forall_mem_cons.mpr ⟨hdot, hd.address⟩⟩

theorem Groups.address (h : Groups mixed n s) : ∀ c ∈ s, isAddressChar c = true := by
  induction h with
  | none => exact fun _ hc => absurd hc List.not_mem_nil
  | one hs _ => exact hs.address
  | two _ hs => exact hs.address
  | more hgroup _ _ ih => exact List.forall_mem_append.mpr ⟨hgroup.address, List.forall_mem_cons.mpr ⟨rfl, ih⟩⟩

theorem IPv6Address.address (h : IPv6Address s) : ∀ c ∈ s, isAddressChar c = true := by
  cases h with
  | full h => exact h.address
  | gap hbefore hafter _ =>
    exact List.forall_mem_append.mpr ⟨hbefore.address, List.forall_mem_cons.mpr ⟨rfl, List.forall_mem_cons.mpr ⟨rfl, hafter.address⟩⟩⟩

theorem IPvFuture.address (h : IPvFuture s) : ∀ c ∈ s, isAddressChar c = true := by
  obtain ⟨v, version, address, rfl, hv, hversion, -, haddress⟩ := h
  have hfirst : isAddressChar v = true := by
    have hletter : v = 86 ∨ v = 118 := by
      rw [lower] at hv
      split at hv
      · exact .inl (by rw [← UInt8.add_sub_cancel v 32, hv]; rfl)
      · exact .inr hv
    rcases hletter with rfl | rfl
    · rfl
    · rfl
  refine List.forall_mem_cons.mpr ⟨hfirst, List.forall_mem_append.mpr ⟨hversion.address, List.forall_mem_cons.mpr ⟨rfl, ?_⟩⟩⟩
  intro c hc
  rcases haddress c hc with hname | rfl
  · exact isAddressChar_of_isRegNameChar hname
  · rfl

theorem literal_address (h : IPv6Address s ∨ IPvFuture s) : ∀ c ∈ s, isAddressChar c = true :=
  h.elim IPv6Address.address IPvFuture.address

theorem name_all (h : Encoded isRegNameChar s) : ∀ c ∈ s, (isRegNameChar c || c = 37) = true :=
  h.all (fun _ hc => by rw [hc, Bool.true_or]) rfl fun _ hc => by rw [isRegNameChar_of_isHexDigit hc, Bool.true_or]

theorem UriHost.chars (h : UriHost s) : ∀ c ∈ s, isAuthorityChar c = true := by
  cases h with
  | name hname =>
    exact hname.all (fun _ => isAuthorityChar_of_isRegNameChar) rfl
      fun _ hc => isAuthorityChar_of_isRegNameChar (isRegNameChar_of_isHexDigit hc)
  | literal hliteral =>
    refine List.forall_mem_cons.mpr ⟨rfl, List.forall_mem_append.mpr ⟨fun c hc => ?_, List.forall_mem_singleton.mpr rfl⟩⟩
    have haddress := literal_address hliteral c hc
    rw [isAddressChar, Bool.or_eq_true, decide_eq_true_eq] at haddress
    rcases haddress with hname | rfl
    · exact isAuthorityChar_of_isRegNameChar hname
    · rfl

theorem PortText.chars (h : PortText s port) : ∀ c ∈ s, isAuthorityChar c = true := by
  cases h with
  | none => exact fun _ hc => absurd hc List.not_mem_nil
  | empty => exact List.forall_mem_singleton.mpr rfl
  | digits hs =>
    exact List.forall_mem_cons.mpr ⟨rfl, fun c hc => isAuthorityChar_of_isRegNameChar (isRegNameChar_of_isDigit (hs.2 c hc))⟩

theorem HostPort.chars (h : HostPort s authority) : ∀ c ∈ s, isAuthorityChar c = true := by
  obtain ⟨hhost, port, rfl, hport⟩ := h
  exact List.forall_mem_append.mpr ⟨hhost.chars, hport.chars⟩

theorem PortText.head (h : PortText s port) : ∀ c ∈ s.head?, c = 58 := by
  cases h with
  | none => exact fun _ hc => absurd hc (Option.not_mem_none _)
  | empty => exact fun _ hc => (Option.some.inj hc).symm
  | digits _ => exact fun _ hc => (Option.some.inj hc).symm

theorem PortText.deterministic {port' : Option Nat} (h : PortText s port) (h' : PortText s port') : port = port' := by
  cases h with
  | none => cases h' with | none => rfl
  | empty =>
    cases h' with
    | empty => rfl
    | digits hs => exact absurd rfl hs.1
  | digits hs =>
    cases h' with
    | empty => exact absurd rfl hs.1
    | digits _ => rfl

/-- A host ends at a colon, or at a bracket if it starts with one. -/
theorem UriHost.cut {a b p r : Octets} (ha : UriHost a) (hb : UriHost b) (hp : ∀ c ∈ p.head?, c = 58) (hr : ∀ c ∈ r.head?, c = 58)
    (h : a ++ p = b ++ r) : a = b ∧ p = r := by
  have hbracket : ∀ {x y z : Octets}, Encoded isRegNameChar x → (∀ c ∈ y.head?, c = 58) → x ++ y ≠ 91 :: z := by
    intro x y z hx hy heq
    cases x with
    | nil => exact absurd (hy 91 (by rw [← List.nil_append y, heq]; rfl)) (by decide)
    | cons c x =>
      obtain ⟨rfl, -⟩ := List.cons.inj heq
      exact notMem_of_all (name_all hx) (by decide) List.mem_cons_self
  cases ha with
  | name hna =>
    cases hb with
    | name hnb =>
      have hstop : ∀ {y : Octets}, (∀ c ∈ y.head?, c = 58) → ∀ c ∈ y.head?, (isRegNameChar c || c = 37) = false := by
        intro y hy c hc
        rw [hy c hc]
        decide
      exact run_unique (name_all hna) (name_all hnb) (hstop hp) (hstop hr) h
    | literal _ => exact absurd h (hbracket hna hp)
  | literal hla =>
    cases hb with
    | name hnb => exact absurd h.symm (hbracket hnb hr)
    | literal hlb =>
      have hfree : ∀ {x : Octets}, IPv6Address x ∨ IPvFuture x → (93 : UInt8) ∉ x := fun hx => notMem_of_all (literal_address hx) (by decide)
      rw [List.cons_append, List.cons_append, List.append_assoc, List.append_assoc] at h
      obtain ⟨rfl, rfl⟩ := splitFirst_unique (List.cons.inj h).2 (hfree hla) (hfree hlb)
      exact ⟨rfl, rfl⟩

theorem HostPort.deterministic (h : HostPort s authority) (h' : HostPort s authority') : authority = authority' := by
  obtain ⟨hhost, p, rfl, hport⟩ := h
  obtain ⟨hhost', p', hsame, hport'⟩ := h'
  obtain ⟨hname, rfl⟩ := hhost.cut hhost' hport.head hport'.head hsame
  obtain ⟨host, port⟩ := authority
  obtain ⟨host', port'⟩ := authority'
  cases hname
  cases hport.deterministic hport'
  rfl

end Hosts

/-! ## Request lines -/

section RequestLines

variable {method s line : Octets} {query : Option Octets} {target target' : Target}

theorem QueryText.uri (h : QueryText s query) : ∀ c ∈ s, isUriChar c = true := by
  cases h with
  | none => exact fun _ hc => absurd hc List.not_mem_nil
  | some hs =>
    refine List.forall_mem_cons.mpr ⟨rfl, hs.all (fun _ => isUriChar_of_isQueryChar) rfl fun _ hc => ?_⟩
    exact isUriChar_of_isAuthorityChar (isAuthorityChar_of_isRegNameChar (isRegNameChar_of_isHexDigit hc))

theorem QueryText.head (h : QueryText s query) : ∀ c ∈ s.head?, c = 63 := by
  cases h with
  | none => exact fun _ hc => absurd hc (Option.not_mem_none _)
  | some _ => exact fun _ hc => (Option.some.inj hc).symm

theorem QueryText.deterministic {query' : Option Octets} (h : QueryText s query) (h' : QueryText s query') : query = query' := by
  cases h with
  | none => cases h' with | none => rfl
  | some _ => cases h' with | some _ => rfl

theorem path_all (h : Encoded isPathChar s) : ∀ c ∈ s, (isPathChar c || c = 37) = true := by
  refine h.all (fun _ hc => by rw [hc, Bool.true_or]) rfl fun c hc => ?_
  have hname := isRegNameChar_of_isHexDigit hc
  rw [isRegNameChar, Bool.or_eq_true] at hname
  simp only [isPathChar, isPchar, Bool.or_eq_true]
  tauto

theorem path_uri (h : Encoded isPathChar s) : ∀ c ∈ s, isUriChar c = true := by
  intro c hc
  have hall := path_all h c hc
  rw [Bool.or_eq_true, decide_eq_true_eq] at hall
  rcases hall with hpath | rfl
  · exact isUriChar_of_isPathChar hpath
  · rfl

/-- A path ends at a question mark. -/
theorem path_cut {path path' q q' : Octets} {query' : Option Octets} (hpath : Encoded isPathChar path)
    (hpath' : Encoded isPathChar path') (hq : QueryText q query) (hq' : QueryText q' query') (h : path ++ q = path' ++ q') :
    path = path' ∧ query = query' := by
  have hstop : ∀ {y : Octets}, (∀ c ∈ y.head?, c = 63) → ∀ c ∈ y.head?, (isPathChar c || c = 37) = false := by
    intro y hy c hc
    rw [hy c hc]
    decide
  obtain ⟨rfl, rfl⟩ := run_unique (path_all hpath) (path_all hpath') (hstop hq.head) (hstop hq'.head) h
  exact ⟨rfl, hq.deterministic hq'⟩

theorem pathOrEmpty_encoded (h : s = [] ∨ AbsolutePath s) : Encoded isPathChar s := by
  rcases h with rfl | h
  · exact .nil
  · exact h.2

theorem Scheme.chars (h : Scheme s) : ∀ c ∈ s, isRegNameChar c = true := by
  intro c hc
  have hall := h.2 c hc
  simp only [Bool.or_eq_true, decide_eq_true_eq] at hall
  rcases hall with (((halpha | hdigit) | rfl) | rfl) | rfl
  · simp only [isRegNameChar, isUnreserved, halpha, Bool.true_or]
  · exact isRegNameChar_of_isDigit hdigit
  · rfl
  · rfl
  · rfl

theorem TargetText.uri (h : TargetText method s target) : ∀ c ∈ s, isUriChar c = true := by
  cases h with
  | origin _ hpath hq => exact List.forall_mem_append.mpr ⟨path_uri hpath.2, hq.uri⟩
  | absolute _ hscheme ha hpath hq =>
    have hscheme' := fun c hc => isUriChar_of_isAuthorityChar (isAuthorityChar_of_isRegNameChar (hscheme.chars c hc))
    refine List.forall_mem_append.mpr ⟨hscheme', List.forall_mem_cons.mpr ⟨rfl, List.forall_mem_cons.mpr ⟨rfl, ?_⟩⟩⟩
    refine List.forall_mem_cons.mpr ⟨rfl, List.forall_mem_append.mpr ⟨?_, ?_⟩⟩
    · exact fun c hc => isUriChar_of_isAuthorityChar (ha.chars c hc)
    · exact List.forall_mem_append.mpr ⟨path_uri (pathOrEmpty_encoded hpath), hq.uri⟩
  | authority _ ha _ => exact fun c hc => isUriChar_of_isAuthorityChar (ha.chars c hc)
  | asterisk _ => exact List.forall_mem_singleton.mpr rfl

/-- The form of a target. -/
def Target.form : Target → Nat
  | .origin .. => 0
  | .absolute .. => 1
  | .authority .. => 2
  | .asterisk => 3

/-- The form that the method and the first character show. -/
def formOf (method s : Octets) : Nat :=
  if method = connect then 2 else if s.head? = some 47 then 0 else if s.head? = some 42 then 3 else 1

theorem TargetText.form_eq (h : TargetText method s target) : target.form = formOf method s := by
  cases h with
  | @origin path q _ hmethod hpath _ =>
    have hhead : (path ++ q).head? = some 47 := by rw [List.head?_append, hpath.1, Option.some_or]
    rw [formOf, if_neg hmethod, if_pos hhead]
    rfl
  | @absolute scheme a path q _ _ hmethod hscheme _ _ _ =>
    obtain ⟨c, hc, halpha⟩ := hscheme.1
    have hhead : (scheme ++ 58 :: 47 :: 47 :: (a ++ (path ++ q))).head? = some c := by
      rw [List.head?_append, Option.mem_def.mp hc, Option.some_or]
    have hslash : some c ≠ some 47 := by
      rintro ⟨⟩
      cases halpha
    have hasterisk : some c ≠ some 42 := by
      rintro ⟨⟩
      cases halpha
    rw [formOf, hhead, if_neg hmethod, if_neg hslash, if_neg hasterisk]
    rfl
  | authority hmethod _ _ =>
    rw [formOf, if_pos hmethod]
    rfl
  | asterisk hmethod =>
    rw [hmethod]
    rfl

theorem TargetText.deterministic (h : TargetText method s target) (h' : TargetText method s target') : target = target' := by
  have hform : target.form = target'.form := h.form_eq.trans h'.form_eq.symm
  cases target with
  | origin path query =>
    cases target' with
    | origin path' query' =>
      generalize hs : s = text at h'
      cases h with
      | origin _ hpath hq =>
        cases h' with
        | origin _ hpath' hq' =>
          obtain ⟨rfl, rfl⟩ := path_cut hpath.2 hpath'.2 hq hq' hs
          rfl
    | absolute _ _ _ _ => cases hform
    | authority _ => cases hform
    | asterisk => cases hform
  | absolute scheme authority path query =>
    cases target' with
    | origin _ _ => cases hform
    | absolute scheme' authority' path' query' =>
      generalize hs : s = text at h'
      cases h with
      | @absolute _ a _ q _ _ _ hscheme ha hpath hq =>
        cases h' with
        | @absolute _ a' _ q' _ _ _ hscheme' ha' hpath' hq' =>
          have hfree : ∀ {x : Octets}, Scheme x → (58 : UInt8) ∉ x := fun hx => notMem_of_all hx.chars (by decide)
          obtain ⟨rfl, hrest⟩ := splitFirst_unique hs (hfree hscheme) (hfree hscheme')
          have hstop : ∀ {x y : Octets} {z : Option Octets}, x = [] ∨ AbsolutePath x → QueryText y z →
              ∀ c ∈ (x ++ y).head?, isAuthorityChar c = false := by
            intro x y z hx hy c hc
            rcases hx with rfl | hx
            · rw [hy.head c hc]
              decide
            · rw [List.head?_append, hx.1, Option.some_or] at hc
              cases hc
              decide
          obtain ⟨rfl, hbehind⟩ := run_unique ha.chars ha'.chars (hstop hpath hq) (hstop hpath' hq')
            (List.cons.inj (List.cons.inj hrest).2).2
          obtain ⟨rfl, rfl⟩ := path_cut (pathOrEmpty_encoded hpath) (pathOrEmpty_encoded hpath') hq hq' hbehind
          rw [ha.deterministic ha']
    | authority _ => cases hform
    | asterisk => cases hform
  | authority authority =>
    cases target' with
    | origin _ _ => cases hform
    | absolute _ _ _ _ => cases hform
    | authority authority' =>
      cases h with
      | authority _ ha _ =>
        cases h' with
        | authority _ ha' _ => rw [ha.deterministic ha']
    | asterisk => cases hform
  | asterisk =>
    cases target' with
    | origin _ _ => cases hform
    | absolute _ _ _ _ => cases hform
    | authority _ => cases hform
    | asterisk => rfl

theorem Token.free {c : UInt8} (h : Token s) (hc : isTchar c = false) : c ∉ s := notMem_of_all h.2 hc

theorem RequestLine.free (h : RequestLine line method target) : (13 : UInt8) ∉ line := by
  obtain ⟨hmethod, text, htext, rfl⟩ := h
  have hbehind : (13 : UInt8) ∉ text ++ 32 :: version := by
    rw [List.mem_append, not_or]
    exact ⟨notMem_of_all htext.uri (by decide), by decide⟩
  rw [List.mem_append, List.mem_cons, not_or, not_or]
  exact ⟨hmethod.free (by decide), by decide, hbehind⟩

theorem RequestLine.deterministic {method' : Octets} (h : RequestLine line method target) (h' : RequestLine line method' target') :
    method = method' ∧ target = target' := by
  obtain ⟨hmethod, text, htext, rfl⟩ := h
  obtain ⟨hmethod', text', htext', hsame⟩ := h'
  obtain ⟨rfl, hrest⟩ := splitFirst_unique hsame (hmethod.free (by decide)) (hmethod'.free (by decide))
  obtain ⟨rfl, -⟩ := splitFirst_unique hrest (notMem_of_all htext.uri (by decide)) (notMem_of_all htext'.uri (by decide))
  exact ⟨rfl, htext.deterministic htext'⟩

end RequestLines

/-! ## Fields -/

section Fields

variable {s line : Octets} {field field' : Field} {fields : List Field} {lines lines' : List Octets}

theorem dropWhile_blanks {before rest : Octets} (hbefore : ∀ c ∈ before, isBlank c = true)
    (hrest : ∀ c ∈ rest.head?, isBlank c = false) : (before ++ rest).dropWhile isBlank = rest := dropWhile_run hbefore hrest

/-- The white space around a value is taken off. -/
theorem stripBlanks_eq {before after value : Octets} (hvalue : FieldValue value) (hbefore : ∀ c ∈ before, isBlank c = true)
    (hafter : ∀ c ∈ after, isBlank c = true) : stripBlanks (before ++ value ++ after) = value := by
  rcases List.eq_nil_or_concat value with rfl | ⟨front, last, rfl⟩
  · have hall : ∀ c ∈ before ++ [] ++ after, isBlank c = true := by
      rw [List.append_nil]
      exact List.forall_mem_append.mpr ⟨hbefore, hafter⟩
    rw [stripBlanks, List.dropWhile_eq_nil_iff.mpr hall]
    rfl
  · rw [List.concat_eq_append] at hvalue ⊢
    have hhead : ∀ c ∈ (front ++ [last] ++ after).head?, isBlank c = false := by
      intro c hc
      rw [List.head?_append_of_ne_nil _ (by simp)] at hc
      exact hvalue.2.1 c hc
    have hlast : ∀ c ∈ (front ++ [last]).reverse.head?, isBlank c = false := by
      rw [List.head?_reverse]
      exact hvalue.2.2
    rw [stripBlanks, List.append_assoc before, dropWhile_blanks hbefore hhead, List.rdropWhile, List.reverse_append,
      dropWhile_blanks (fun c hc => hafter c (List.mem_reverse.mp hc)) hlast, List.reverse_reverse]

/-- A text is what stripping leaves, with white space around. -/
theorem exists_stripBlanks (s : Octets) :
    ∃ before after, s = before ++ stripBlanks s ++ after ∧ (∀ c ∈ before, isBlank c = true) ∧ ∀ c ∈ after, isBlank c = true := by
  refine ⟨s.takeWhile isBlank, (s.dropWhile isBlank).rtakeWhile isBlank, ?_, fun c hc => List.mem_takeWhile_imp hc,
    fun c hc => List.mem_rtakeWhile_imp hc⟩
  rw [stripBlanks, List.append_assoc, List.rdropWhile_append_rtakeWhile, List.takeWhile_append_dropWhile]

/-- What stripping leaves is a value. -/
theorem fieldValue_stripBlanks (h : ∀ c ∈ s, isFieldChar c = true) : FieldValue (stripBlanks s) := by
  obtain ⟨before, after, hs, -, -⟩ := exists_stripBlanks s
  refine ⟨fun c hc => h c ?_, fun c hc => ?_, fun c hc => ?_⟩
  · rw [hs]
    exact List.mem_append_left _ (List.mem_append_right _ hc)
  · have hstop := List.head?_dropWhile_not isBlank s
    cases hrest : s.dropWhile isBlank with
    | nil =>
      rw [stripBlanks, hrest] at hc
      cases hc
    | cons d rest =>
      rw [hrest] at hstop
      obtain ⟨t, ht⟩ := List.rdropWhile_prefix isBlank (d :: rest)
      rw [stripBlanks, hrest] at hc
      cases hstripped : (d :: rest).rdropWhile isBlank with
      | nil =>
        rw [hstripped] at hc
        cases hc
      | cons e more =>
        rw [hstripped] at hc ht
        cases hc
        rw [List.cons_append] at ht
        rw [(List.cons.inj ht).1]
        exact hstop
  · have hne : (s.dropWhile isBlank).rdropWhile isBlank ≠ [] := by
      intro hnil
      rw [stripBlanks, hnil] at hc
      cases hc
    have hlast := List.rdropWhile_last_not isBlank (s.dropWhile isBlank) hne
    rw [stripBlanks, List.getLast?_eq_some_getLast hne] at hc
    cases hc
    exact Bool.eq_false_iff.mpr hlast

theorem FieldLine.deterministic (h : FieldLine line field) (h' : FieldLine line field') : field = field' := by
  obtain ⟨hname, hvalue, before, after, rfl, hbefore, hafter⟩ := h
  obtain ⟨hname', hvalue', before', after', hsame, hbefore', hafter'⟩ := h'
  obtain ⟨hnames, hrest⟩ := splitFirst_unique hsame (hname.free (by decide)) (hname'.free (by decide))
  refine Prod.ext hnames ?_
  rw [← stripBlanks_eq hvalue hbefore hafter, hrest, stripBlanks_eq hvalue' hbefore' hafter']

theorem notMem_of_fieldChars (h : ∀ c ∈ s, isFieldChar c = true) : (13 : UInt8) ∉ s := notMem_of_all h (by decide)

theorem blanks_fieldChars (h : ∀ c ∈ s, isBlank c = true) : ∀ c ∈ s, isFieldChar c = true :=
  fun c hc => by rw [isFieldChar, h c hc, Bool.or_true]

/-- A line of a section: it is not empty and has no line break in it. -/
def IsLine (line : Octets) : Prop := line ≠ [] ∧ (13 : UInt8) ∉ line

theorem FieldLine.isLine (h : FieldLine line field) : IsLine line := by
  obtain ⟨hname, hvalue, before, after, rfl, hbefore, hafter⟩ := h
  have hbehind : ∀ c ∈ before ++ field.2 ++ after, isFieldChar c = true :=
    List.forall_mem_append.mpr
      ⟨List.forall_mem_append.mpr ⟨blanks_fieldChars hbefore, hvalue.1⟩, blanks_fieldChars hafter⟩
  constructor
  · exact List.append_ne_nil_of_left_ne_nil hname.1 _
  · rw [List.mem_append, List.mem_cons, not_or, not_or]
    exact ⟨hname.free (by decide), by decide, notMem_of_fieldChars hbehind⟩

theorem isLine_of_fieldLines (h : List.Forall₂ FieldLine lines fields) : ∀ line ∈ lines, IsLine line := by
  induction h with
  | nil => exact fun _ hline => absurd hline List.not_mem_nil
  | cons hline _ ih => exact List.forall_mem_cons.mpr ⟨hline.isLine, ih⟩

theorem fieldLines_deterministic {fields' : List Field} (h : List.Forall₂ FieldLine lines fields)
    (h' : List.Forall₂ FieldLine lines fields') : fields = fields' := by
  have hunique : Relator.RightUnique FieldLine := fun _ _ _ hline hline' => hline.deterministic hline'
  exact List.right_unique_forall₂' hunique h h'

/-- Every field has a line. -/
theorem exists_fieldLine (h : List.Forall₂ FieldLine lines fields) (hfield : field ∈ fields) : ∃ line, FieldLine line field := by
  induction h with
  | nil => cases hfield
  | cons hline _ ih =>
    rcases List.mem_cons.mp hfield with rfl | hmem
    · exact ⟨_, hline⟩
    · exact ih hmem

/-- What is around a value is white space. -/
theorem fieldChars_of_stripBlanks (h : FieldValue (stripBlanks s)) : ∀ c ∈ s, isFieldChar c = true := by
  obtain ⟨before, after, hs, hbefore, hafter⟩ := exists_stripBlanks s
  rw [hs]
  exact List.forall_mem_append.mpr ⟨List.forall_mem_append.mpr ⟨blanks_fieldChars hbefore, h.1⟩, blanks_fieldChars hafter⟩

theorem isVisible_of_isAuthorityChar {c : UInt8} (h : isAuthorityChar c = true) : isVisible c = true ∧ isBlank c = false := by
  have hall : ∀ n, n < 256 → isAuthorityChar (UInt8.ofNat n) = true → isVisible (UInt8.ofNat n) = true ∧ isBlank (UInt8.ofNat n) = false := by
    decide +kernel
  have hc := hall c.toNat c.toNat_lt
  rw [UInt8.ofNat_toNat] at hc
  exact hc h

/-- Nothing is stripped from a text without white space. -/
theorem fieldValue_of_isAuthorityChar (h : ∀ c ∈ s, isAuthorityChar c = true) : FieldValue s ∧ stripBlanks s = s := by
  have hchars := fun c hc => isVisible_of_isAuthorityChar (h c hc)
  have hvalue : FieldValue s := by
    refine ⟨fun c hc => ?_, fun c hc => (hchars c (List.mem_of_mem_head? hc)).2, fun c hc => (hchars c (List.mem_of_getLast? hc)).2⟩
    rw [isFieldChar, (hchars c hc).1, Bool.true_or]
  have hnone : ∀ c ∈ ([] : Octets), isBlank c = true := fun _ hc => absurd hc List.not_mem_nil
  have hstrip := stripBlanks_eq hvalue hnone hnone
  rw [List.nil_append, List.append_nil] at hstrip
  exact ⟨hvalue, hstrip⟩

theorem valuesOf_append (name : Octets) (fields fields' : List Field) :
    valuesOf name (fields ++ fields') = valuesOf name fields ++ valuesOf name fields' := by
  rw [valuesOf, List.filter_append, List.map_append]
  rfl

theorem valuesOf_cons_same {name : Octets} (h : sameName field.1 name = true) :
    valuesOf name (field :: fields) = field.2 :: valuesOf name fields := by
  rw [valuesOf, List.filter_cons, if_pos h, List.map_cons]
  rfl

theorem valuesOf_cons_other {name : Octets} (h : sameName field.1 name = false) :
    valuesOf name (field :: fields) = valuesOf name fields := by
  rw [valuesOf, List.filter_cons, if_neg (Bool.eq_false_iff.mp h)]
  rfl

/-- A line ends at its line break. -/
theorem line_cut {line' rest rest' : Octets} (hline : (13 : UInt8) ∉ line) (hline' : (13 : UInt8) ∉ line')
    (h : line ++ (crlf ++ rest) = line' ++ (crlf ++ rest')) : line = line' ∧ rest = rest' := by
  obtain ⟨hsame, hbehind⟩ := splitFirst_unique h hline hline'
  exact ⟨hsame, (List.cons.inj hbehind).2⟩

theorem lineSection_cons (line : Octets) (lines : List Octets) : lineSection (line :: lines) = line ++ (crlf ++ lineSection lines) := by
  rw [lineSection, List.flatMap_cons, List.append_assoc, List.append_assoc]
  rfl

/-- A section ends at its empty line. -/
theorem lineSection_cut {rest rest' : Octets} (hlines : ∀ line ∈ lines, IsLine line) (hlines' : ∀ line ∈ lines', IsLine line)
    (h : lineSection lines ++ rest = lineSection lines' ++ rest') : lines = lines' ∧ rest = rest' := by
  have hend : ∀ {line : Octets} {more : List Octets} {x y : Octets}, IsLine line → lineSection [] ++ x ≠ lineSection (line :: more) ++ y := by
    intro line more x y hline heq
    rw [lineSection_cons, List.append_assoc] at heq
    cases line with
    | nil => exact hline.1 rfl
    | cons c line =>
      obtain ⟨rfl, -⟩ := List.cons.inj heq
      exact hline.2 List.mem_cons_self
  induction lines generalizing lines' with
  | nil =>
    cases lines' with
    | nil => exact ⟨rfl, List.append_cancel_left h⟩
    | cons line' lines' => exact absurd h (hend (hlines' line' List.mem_cons_self))
  | cons line lines ih =>
    cases lines' with
    | nil => exact absurd h.symm (hend (hlines line List.mem_cons_self))
    | cons line' lines' =>
      rw [lineSection_cons, lineSection_cons, List.append_assoc, List.append_assoc, List.append_assoc, List.append_assoc] at h
      obtain ⟨hline, hmore⟩ := List.forall_mem_cons.mp hlines
      obtain ⟨hline', hmore'⟩ := List.forall_mem_cons.mp hlines'
      obtain ⟨rfl, hbehind⟩ := line_cut hline.2 hline'.2 h
      obtain ⟨rfl, hrest⟩ := ih hmore hmore' hbehind
      exact ⟨rfl, hrest⟩

end Fields

/-! ## Bodies -/

section Bodies

variable {line text text' body body' rest rest' : Octets} {fields : List Field} {size size' : Nat}

theorem SizeLine.stop {digits padding extensions : Octets} (hpadding : ∀ c ∈ padding, isBlank c = true)
    (hextensions : ∀ c ∈ extensions.head?, c = 59) (hne : digits = padding ++ extensions) : ∀ c ∈ digits.head?, isHexDigit c = false := by
  intro c hc
  rw [hne, List.head?_append] at hc
  cases padding with
  | nil =>
    rw [hextensions c hc]
    decide
  | cons d padding =>
    cases hc
    have hblank := hpadding c List.mem_cons_self
    rw [isBlank, Bool.or_eq_true, decide_eq_true_eq, decide_eq_true_eq] at hblank
    rcases hblank with rfl | rfl
    · decide
    · decide

theorem SizeLine.deterministic (h : SizeLine line size) (h' : SizeLine line size') : size = size' := by
  obtain ⟨digits, padding, extensions, rfl, hdigits, rfl, hpadding, hextensions, -⟩ := h
  obtain ⟨digits', padding', extensions', hsame, hdigits', rfl, hpadding', hextensions', -⟩ := h'
  obtain ⟨rfl, -⟩ := run_unique hdigits.2 hdigits'.2 (SizeLine.stop hpadding hextensions rfl)
    (SizeLine.stop hpadding' hextensions' rfl) hsame
  rfl

theorem SizeLine.free (h : SizeLine line size) : (13 : UInt8) ∉ line := by
  obtain ⟨digits, padding, extensions, rfl, hdigits, -, hpadding, -, hextensions⟩ := h
  rw [List.mem_append, List.mem_append, not_or, not_or]
  exact ⟨notMem_of_all hdigits.2 (by decide), notMem_of_all hpadding (by decide), notMem_of_fieldChars hextensions⟩

theorem ChunkedBody.ne_nil (h : ChunkedBody text body) : text ≠ [] := by
  have hcrlf : ∀ {x : Octets}, crlf ++ x ≠ [] := fun hnil => List.cons_ne_nil _ _ hnil
  cases h with
  | last _ _ => exact List.append_ne_nil_of_right_ne_nil _ hcrlf
  | chunk _ _ _ => exact List.append_ne_nil_of_right_ne_nil _ hcrlf

/-- Chunks end at the first of size zero, and the trailers at the empty line behind it. -/
theorem ChunkedBody.deterministic (h : ChunkedBody text body) (h' : ChunkedBody text' body')
    (hsame : text ++ rest = text' ++ rest') : body = body' ∧ rest = rest' := by
  induction h generalizing text' body' with
  | last hline htrailers =>
    cases h' with
    | last hline' htrailers' =>
      simp only [List.append_assoc] at hsame
      obtain ⟨-, hsections⟩ := line_cut hline.free hline'.free hsame
      exact ⟨rfl, (lineSection_cut (isLine_of_fieldLines htrailers) (isLine_of_fieldLines htrailers') hsections).2⟩
    | chunk hline' hne' _ =>
      simp only [List.append_assoc] at hsame
      obtain ⟨rfl, -⟩ := line_cut hline.free hline'.free hsame
      exact absurd (List.length_eq_zero_iff.mp (hline'.deterministic hline)) hne'
  | chunk hline hne _ ih =>
    cases h' with
    | last hline' _ =>
      simp only [List.append_assoc] at hsame
      obtain ⟨rfl, -⟩ := line_cut hline.free hline'.free hsame
      exact absurd (List.length_eq_zero_iff.mp (hline.deterministic hline')) hne
    | chunk hline' _ hmore' =>
      simp only [List.append_assoc] at hsame
      obtain ⟨rfl, hchunk⟩ := line_cut hline.free hline'.free hsame
      obtain ⟨rfl, hbehind⟩ := List.append_inj hchunk (hline.deterministic hline')
      obtain ⟨rfl, hrest⟩ := ih hmore' (List.append_cancel_left hbehind)
      exact ⟨rfl, hrest⟩

theorem not_endsChunked_nil : ¬ EndsChunked [] := by
  rintro ⟨value, hvalue, -⟩
  cases hvalue

/-- The fields say where the body ends. -/
theorem Framed.deterministic (h : Framed fields text body) (h' : Framed fields text' body') (hsame : text ++ rest = text' ++ rest') :
    body = body' ∧ rest = rest' := by
  cases h with
  | none hcodings hlengths =>
    cases h' with
    | none _ _ => exact ⟨rfl, hsame⟩
    | length _ hlengths' _ _ =>
      rw [hlengths] at hlengths'
      cases hlengths'
    | chunked hcodings' _ _ =>
      rw [hcodings] at hcodings'
      exact absurd hcodings' not_endsChunked_nil
  | length hcodings hlengths _ hvalue =>
    cases h' with
    | none _ hlengths' =>
      rw [hlengths] at hlengths'
      cases hlengths'
    | length _ hlengths' _ hvalue' =>
      rw [hlengths] at hlengths'
      cases hlengths'
      exact List.append_inj hsame (hvalue.symm.trans hvalue')
    | chunked hcodings' _ _ =>
      rw [hcodings] at hcodings'
      exact absurd hcodings' not_endsChunked_nil
  | chunked hcodings hlengths hbody =>
    cases h' with
    | none hcodings' _ =>
      rw [hcodings'] at hcodings
      exact absurd hcodings not_endsChunked_nil
    | length hcodings' _ _ _ =>
      rw [hcodings'] at hcodings
      exact absurd hcodings not_endsChunked_nil
    | chunked _ _ hbody' => exact hbody.deterministic hbody' hsame

end Bodies

/-! ## Requests -/

/-- The parts of a text that is a request. -/
theorem IsRequest.parts {text : Octets} {r : Request} (h : IsRequest text r) :
    ∃ line lines host content, text = line ++ (crlf ++ (lineSection lines ++ content)) ∧ RequestLine line r.method r.target ∧
      List.Forall₂ FieldLine lines r.fields ∧ valuesOf hostName r.fields = [host] ∧ HostPort host r.host ∧
      Framed r.fields content r.body := by
  obtain ⟨hline, hlines, hhosts, hhost, hframed⟩ := h
  exact ⟨_, _, _, _, rfl, hline, hlines, hhosts, hhost, hframed⟩

/-- At the front of a text there is one request at most. -/
theorem IsRequest.deterministic {text text' rest rest' : Octets} {r r' : Request} (h : IsRequest text r) (h' : IsRequest text' r')
    (hsame : text ++ rest = text' ++ rest') : r = r' ∧ rest = rest' := by
  obtain ⟨hline, hlines, hhosts, hhost, hframed⟩ := h
  obtain ⟨hline', hlines', hhosts', hhost', hframed'⟩ := h'
  simp only [List.append_assoc] at hsame
  obtain ⟨rfl, hsections⟩ := line_cut hline.free hline'.free hsame
  obtain ⟨rfl, hbodies⟩ := lineSection_cut (isLine_of_fieldLines hlines) (isLine_of_fieldLines hlines') hsections
  obtain ⟨rfl, rfl⟩ := hline.deterministic hline'
  obtain rfl := fieldLines_deterministic hlines hlines'
  rw [hhosts] at hhosts'
  cases hhosts'
  obtain rfl := hhost.deterministic hhost'
  obtain ⟨rfl, hrest⟩ := hframed.deterministic hframed' hbodies
  exact ⟨rfl, hrest⟩

/-- A text is one request, and no other and no more can be read from it. -/
structure ReadsAs (text : Octets) (r : Request) : Prop where
  reads : IsRequest text r
  only : ∀ {front rest : Octets} {r' : Request}, text = front ++ rest → IsRequest front r' → r' = r ∧ rest = []

theorem IsRequest.readsAs {text : Octets} {r : Request} (h : IsRequest text r) : ReadsAs text r where
  reads := h
  only := by
    intro front rest r' htext h'
    obtain ⟨hr, hrest⟩ := h'.deterministic h (show front ++ rest = text ++ [] by rw [← htext, List.append_nil])
    exact ⟨hr, hrest⟩

end HttpGrammar
