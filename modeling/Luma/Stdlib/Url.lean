-- SUMMARY: The URL parser of the HTTP module, and the parts that a URL has.
import Luma.Library.Scanning
import Luma.Protocol.Transport
import Luma.Stdlib.TextNumbers

/-! # URLs

`parse_url` looks for one separator after the other. The authority of a URL ends where its
path, its query or its fragment starts, whichever comes first. -/

namespace Luma.Url

open Codec Scanning TextNumbers

def slash : UInt8 := 47
def question : UInt8 := 63
def hash : UInt8 := 35
def colon : UInt8 := 58
def atSign : UInt8 := 64
def openBracket : UInt8 := 91
def closeBracket : UInt8 := 93

/-- `"://"`. -/
def schemeEnd : Bytes := [colon, slash, slash]

/-- `"http"` and `"https"`. -/
def http : Bytes := [104, 116, 116, 112]
def https : Bytes := [104, 116, 116, 112, 115]

/-! ## The parser -/

def defaultPortForScheme (scheme : Bytes) : Int := if scheme = https then 443 else 80

def parsePortOr (portStr : Bytes) (fallback : Int) : Int := (stoi portStr).getD fallback

structure ParsedUrl where
  scheme : Bytes
  host : Bytes
  port : Int
  path : Bytes
  query : Bytes
  deriving DecidableEq

/-- The scheme in lower case, and what is behind it. -/
def splitScheme (url : Bytes) : Bytes × Bytes :=
  match splitAtMarker schemeEnd url with
  | some found => (found.1.map Protocol.toLower, found.2)
  | none => (http, url)

/-- The authority that is taken, and the path with the query. -/
def splitPath (rest : Bytes) : Bytes × Bytes :=
  match splitFirst slash rest with
  | some found => (found.1, slash :: found.2)
  | none => (rest, [slash])

/-- The path and the query. -/
def splitQuery (path : Bytes) : Bytes × Bytes :=
  match splitFirst question path with
  | some found => found
  | none => (path, [])

/-- The host and the text of the port, if there is one. -/
def splitAuthority (authority : Bytes) : Bytes × Option Bytes :=
  if authority.head? = some openBracket then
    match splitFirst closeBracket authority with
    | some bracket => (bracket.1 ++ [closeBracket], (splitFirst colon bracket.2).map (·.2))
    | none => (authority, none)
  else
    let hostAuthority := match splitFirst atSign authority with
      | some found => found.2
      | none => authority
    match splitLast colon hostAuthority with
    | some found => (found.1, some found.2)
    | none => (hostAuthority, none)

def parseUrl (url : Bytes) : ParsedUrl :=
  let scheme := splitScheme url
  let authority := splitPath scheme.2
  let path := splitQuery authority.2
  let host := splitAuthority authority.1
  let port := defaultPortForScheme scheme.1
  { scheme := scheme.1
    host := host.1
    port := match host.2 with
      | some portStr => parsePortOr portStr port
      | none => port
    path := path.1
    query := path.2 }

/-! ## The parts of a URL -/

/-- `scheme://authority` and a suffix that starts the path, the query or the fragment. -/
structure UrlText where
  scheme : Bytes
  authority : Bytes
  suffix : Bytes
  scheme_free : colon ∉ scheme
  authority_free : ∀ c ∈ authority, c ≠ slash ∧ c ≠ question ∧ c ≠ hash
  suffix_start : ∀ c ∈ suffix.head?, c = slash ∨ c = question ∨ c = hash

namespace UrlText

def text (url : UrlText) : Bytes := url.scheme ++ (schemeEnd ++ (url.authority ++ url.suffix))

/-- The authority without user information, which has no `@` and no brackets in it. -/
def hostPort (url : UrlText) : Bytes :=
  if url.authority.head? = some openBracket then url.authority
  else
    match splitFirst atSign url.authority with
    | some found => found.2
    | none => url.authority

/-- An address in brackets, or what is before the last colon. -/
def host (url : UrlText) : Bytes :=
  if url.hostPort.head? = some openBracket then
    match splitFirst closeBracket url.hostPort with
    | some bracket => bracket.1 ++ [closeBracket]
    | none => url.hostPort
  else
    match splitLast colon url.hostPort with
    | some found => found.1
    | none => url.hostPort

/-- What is behind the colon that follows the host. -/
def portText (url : UrlText) : Option Bytes :=
  if (url.hostPort.drop url.host.length).head? = some colon then some (url.hostPort.drop (url.host.length + 1)) else none

def defaultPort (url : UrlText) : Int := defaultPortForScheme (url.scheme.map Protocol.toLower)

/-- The number of the port text when it is a decimal number in 1..65535, else the default. -/
def port (url : UrlText) : Int :=
  match url.portText with
  | some text => if IsDecimal text ∧ 1 ≤ decimalValue text ∧ decimalValue text ≤ 65535 then decimalValue text else url.defaultPort
  | none => url.defaultPort

/-- The text behind the first `?`, in what is before the fragment. -/
def query (url : UrlText) : Bytes :=
  match splitFirst question (url.suffix.takeWhile (· ≠ hash)) with
  | some found => found.2
  | none => []

/-! ## What the parser gets right -/

/-- The number that the parser reads is none, or the default. -/
def NoNumber (url : UrlText) (text : Bytes) : Prop := stoi text = none ∨ stoi text = some url.defaultPort

/-- The URLs whose parts the parser finds. -/
structure Plain (url : UrlText) : Prop where
  /-- The path is not left out before a query or a fragment. -/
  suffix : ∀ c ∈ url.suffix.head?, c = slash
  /-- There is no fragment, or nothing is behind the first `?`. -/
  query : hash ∉ url.suffix ∨ ∀ before after, url.suffix = before ++ question :: after → question ∉ before → after = []
  /-- An address in brackets that follows user information is followed by the only port,
      or by nothing. -/
  brackets : url.authority.head? ≠ some openBracket → url.hostPort.head? = some openBracket →
    (∃ before text, url.hostPort = before ++ closeBracket :: colon :: text ∧ closeBracket ∉ before ∧ colon ∉ text) ∨
      colon ∉ url.hostPort ∧ ∀ before after, url.hostPort = before ++ closeBracket :: after → closeBracket ∉ before → after = []
  /-- The port is a decimal number in range, or does not start with another number. -/
  port : ∀ text, url.portText = some text →
    (IsDecimal text ∧ 1 ≤ decimalValue text ∧ decimalValue text ≤ 65535) ∨ url.NoNumber text
  /-- A colon that is not directly behind the brackets is not followed by a number. -/
  garbage : url.authority.head? = some openBracket → ∀ before middle text,
    url.authority = before ++ closeBracket :: (middle ++ colon :: text) → closeBracket ∉ before → colon ∉ middle →
      middle ≠ [] → url.NoNumber text

section Parts

variable {url : UrlText} {text : Bytes}

theorem splitScheme_text : splitScheme url.text = (url.scheme.map Protocol.toLower, url.authority ++ url.suffix) := by
  have hfound : ∀ scheme rest, colon ∉ scheme →
      splitAtMarker schemeEnd (scheme ++ (schemeEnd ++ rest)) = some (scheme, rest) := by
    intro scheme rest hfree
    induction scheme with
    | nil => exact splitAtMarker_here
    | cons c scheme ih =>
      rw [List.mem_cons, not_or] at hfree
      refine splitAtMarker_cons ?_ (ih hfree.2)
      rw [schemeEnd, List.isPrefixOf_cons_cons, beq_false_of_ne hfree.1, Bool.false_and]
  rw [splitScheme, text, hfound _ _ url.scheme_free]

/-- The authority that is taken is that of the URL just where the path starts the suffix. -/
theorem splitPath_fst : (splitPath (url.authority ++ url.suffix)).1 = url.authority ↔ ∀ c ∈ url.suffix.head?, c = slash := by
  have hfree : slash ∉ url.authority := fun h => (url.authority_free slash h).1 rfl
  cases hsuffix : url.suffix with
  | nil =>
    rw [List.append_nil, splitPath, splitFirst_of_notMem hfree]
    exact ⟨fun _ c hc => (Option.not_mem_none c hc).elim, fun _ => rfl⟩
  | cons c suffix =>
    rw [List.head?_cons]
    by_cases hc : c = slash
    · subst hc
      rw [splitPath, splitFirst_append hfree]
      exact ⟨fun _ c hc => (Option.some.inj hc).symm, fun _ => rfl⟩
    · refine ⟨fun h => ?_, fun h => absurd (h c rfl) hc⟩
      have hlength : (splitPath (url.authority ++ c :: suffix)).1.length ≠ url.authority.length := by
        rw [splitPath]
        rcases splitFirst_cases slash (url.authority ++ c :: suffix) with ⟨before, after, hsplit, hbefore, heq⟩ | ⟨-, heq⟩
        · rw [heq]
          simp only
          intro hlength
          obtain ⟨-, hrest⟩ := List.append_inj hsplit hlength.symm
          exact hc (List.cons.inj hrest).1
        · rw [heq]
          simp only [List.length_append, List.length_cons]
          omega
      rw [h] at hlength
      exact absurd rfl hlength

/-- The path and the query where the path starts the suffix. -/
theorem splitPath_eq (h : ∀ c ∈ url.suffix.head?, c = slash) :
    splitPath (url.authority ++ url.suffix) = (url.authority, if url.suffix = [] then [slash] else url.suffix) := by
  have hfree : slash ∉ url.authority := fun h => (url.authority_free slash h).1 rfl
  cases hsuffix : url.suffix with
  | nil =>
    rw [List.append_nil, splitPath, splitFirst_of_notMem hfree, if_pos rfl]
  | cons c suffix =>
    rw [hsuffix] at h
    obtain rfl := h c rfl
    rw [splitPath, splitFirst_append hfree, if_neg (List.cons_ne_nil _ _)]

/-- The query that is found is that of the URL just where no fragment is in it. -/
theorem splitQuery_snd :
    (splitQuery (if url.suffix = [] then [slash] else url.suffix)).2 = url.query ↔
      hash ∉ url.suffix ∨ ∀ before after, url.suffix = before ++ question :: after → question ∉ before → after = [] := by
  rw [UrlText.query]
  generalize url.suffix = suffix
  by_cases hempty : suffix = []
  · subst hempty
    exact ⟨fun _ => Or.inl List.not_mem_nil, fun _ => rfl⟩
  rw [if_neg hempty, splitQuery]
  rcases splitFirst_cases question suffix with ⟨before, after, rfl, hbefore, heq⟩ | ⟨hnone, heq⟩
  · rw [heq]
    have honly : (∀ before' after', before ++ question :: after = before' ++ question :: after' → question ∉ before' → after' = []) ↔
        after = [] := by
      refine ⟨fun h => h before after rfl hbefore, fun hafter before' after' hsplit hbefore' => ?_⟩
      rw [← (splitFirst_unique hsplit hbefore hbefore').2]
      exact hafter
    rw [honly]
    by_cases hhash : hash ∈ before
    · -- The fragment starts before the `?`.
      obtain ⟨front, back, rfl, hfront⟩ := List.eq_append_cons_of_mem hhash
      have htake : (front ++ hash :: back ++ question :: after).takeWhile (· ≠ hash) = front := by
        rw [List.append_assoc]
        refine takeWhile_run (fun c hc => decide_eq_true (ne_of_mem_of_not_mem hc hfront)) fun c hc => ?_
        rw [List.cons_append, List.head?_cons, Option.mem_some] at hc
        exact decide_eq_false (not_not.mpr hc.symm)
      have hnone : splitFirst question front = none :=
        splitFirst_of_notMem fun hmem => hbefore (List.mem_append_left _ hmem)
      rw [htake, hnone]
      exact ⟨fun h => Or.inr h, fun h => h.resolve_left fun hnot => hnot (by simp)⟩
    · have htake : (before ++ question :: after).takeWhile (· ≠ hash) = before ++ question :: after.takeWhile (· ≠ hash) := by
        have hall : ∀ c ∈ before, decide (c ≠ hash) = true := fun c hc => decide_eq_true (ne_of_mem_of_not_mem hc hhash)
        rw [List.takeWhile_append_of_pos hall, List.takeWhile_cons, if_pos (by decide)]
      rw [htake, splitFirst_append hbefore]
      simp only
      rw [eq_comm, List.takeWhile_eq_self_iff]
      constructor
      · intro hall
        refine Or.inl fun hmem => ?_
        rcases List.mem_append.mp hmem with hmem | hmem
        · exact hhash hmem
        · rcases List.mem_cons.mp hmem with hmem | hmem
          · exact absurd hmem (by decide)
          · exact of_decide_eq_true (hall hash hmem) rfl
      · rintro (hfree | rfl) c hc
        · refine decide_eq_true ?_
          rintro rfl
          exact hfree (List.mem_append_right _ (List.mem_cons_of_mem _ hc))
        · exact absurd hc List.not_mem_nil
  · have hprefix : question ∉ suffix.takeWhile (· ≠ hash) := fun hmem => hnone ((List.takeWhile_prefix _).subset hmem)
    rw [heq, splitFirst_of_notMem hprefix]
    refine ⟨fun _ => Or.inr fun before after hsplit _ => ?_, fun _ => rfl⟩
    rw [hsplit] at hnone
    exact absurd (List.mem_append_right _ List.mem_cons_self) hnone

theorem splitAuthority_hostPort (hopen : url.authority.head? ≠ some openBracket) :
    splitAuthority url.authority =
      match splitLast colon url.hostPort with
      | some found => (found.1, some found.2)
      | none => (url.hostPort, none) := by
  rw [splitAuthority, if_neg hopen, hostPort, if_neg hopen]

/-- The host that is found is that of the URL unless brackets follow user information. -/
theorem splitAuthority_fst :
    (splitAuthority url.authority).1 = url.host ↔
      (url.authority.head? ≠ some openBracket → url.hostPort.head? = some openBracket →
        (∃ before text, url.hostPort = before ++ closeBracket :: colon :: text ∧ closeBracket ∉ before ∧ colon ∉ text) ∨
          colon ∉ url.hostPort ∧
            ∀ before after, url.hostPort = before ++ closeBracket :: after → closeBracket ∉ before → after = []) := by
  by_cases hopen : url.authority.head? = some openBracket
  · have hhostPort : url.hostPort = url.authority := if_pos hopen
    have hsame : (splitAuthority url.authority).1 = url.host := by
      rw [splitAuthority, if_pos hopen, UrlText.host, hhostPort, if_pos hopen]
      rcases splitFirst_cases closeBracket url.authority with ⟨before, after, -, -, heq⟩ | ⟨-, heq⟩ <;> rw [heq]
    exact ⟨fun _ hnot => absurd hopen hnot, fun _ => hsame⟩
  · have hcode : (splitAuthority url.authority).1 =
        match splitLast colon url.hostPort with
        | some found => found.1
        | none => url.hostPort := by
      rw [splitAuthority_hostPort hopen]
      cases splitLast colon url.hostPort <;> rfl
    rw [hcode, UrlText.host]
    generalize url.hostPort = hostPort
    by_cases hbracket : hostPort.head? = some openBracket
    · rw [if_pos hbracket]
      refine Iff.trans ?_ (forall_prop_of_true hopen).symm
      refine Iff.trans ?_ (forall_prop_of_true hbracket).symm
      rcases splitFirst_cases closeBracket hostPort with ⟨before, after, hfirst, hbefore, heq⟩ | ⟨hnobracket, heq⟩
      · rcases splitLast_cases colon hostPort with ⟨front, text, hlast, htext, heq'⟩ | ⟨hnocolon, heq'⟩
        · rw [heq, heq']
          simp only
          have hcolon : colon ∈ hostPort := hlast ▸ List.mem_append_right _ List.mem_cons_self
          rw [or_iff_left fun h => h.1 hcolon]
          constructor
          · rintro rfl
            refine ⟨before, text, ?_, hbefore, htext⟩
            rw [hlast, List.append_assoc]
            rfl
          · rintro ⟨before', text', hsplit, hbefore', htext'⟩
            obtain ⟨rfl, -⟩ := splitFirst_unique (hfirst.symm.trans hsplit) hbefore hbefore'
            have hsplit' : hostPort = before ++ [closeBracket] ++ colon :: text' := by
              rw [hsplit, List.append_assoc]
              rfl
            exact (splitLast_unique (hlast.symm.trans hsplit') htext htext').1
        · rw [heq, heq']
          simp only
          have hnone : ¬∃ before text, hostPort = before ++ closeBracket :: colon :: text ∧ closeBracket ∉ before ∧ colon ∉ text := by
            rintro ⟨before', text', hsplit, -, -⟩
            exact hnocolon (hsplit ▸ by simp)
          rw [or_iff_right hnone, and_iff_right hnocolon]
          constructor
          · intro hwhole before' after' hsplit hbefore'
            obtain ⟨-, rfl⟩ := splitFirst_unique (hfirst.symm.trans hsplit) hbefore hbefore'
            have hcut : before ++ closeBracket :: after = before ++ [closeBracket] := hfirst.symm.trans hwhole
            exact (List.cons.inj (List.append_cancel_left hcut)).2
          · intro hall
            rw [hfirst, hall before after hfirst hbefore]
      · have hnone : ¬∃ before text, hostPort = before ++ closeBracket :: colon :: text ∧ closeBracket ∉ before ∧ colon ∉ text := by
          rintro ⟨before', text', hsplit, -, -⟩
          exact hnobracket (hsplit ▸ by simp)
        have hno : ∀ before after, hostPort = before ++ closeBracket :: after → closeBracket ∉ before → after = [] :=
          fun before after hsplit _ => absurd (hsplit ▸ List.mem_append_right _ List.mem_cons_self) hnobracket
        rw [or_iff_right hnone, and_iff_left hno, heq]
        rcases splitLast_cases colon hostPort with ⟨front, text, hlast, htext, heq'⟩ | ⟨hnocolon, heq'⟩
        · rw [heq']
          simp only
          refine ⟨fun h => ?_, fun h => absurd (hlast ▸ List.mem_append_right _ List.mem_cons_self) h⟩
          have hlength := congrArg List.length hlast
          rw [← h, List.length_append, List.length_cons] at hlength
          omega
        · rw [heq']
          exact ⟨fun _ => hnocolon, fun _ => rfl⟩
    · rw [if_neg hbracket]
      exact ⟨fun _ _ hyes => absurd hyes hbracket, fun _ => rfl⟩

/-! ## Ports -/

/-- The number a port text stands for. -/
def portNumber (url : UrlText) (text : Bytes) : Int :=
  if IsDecimal text ∧ 1 ≤ decimalValue text ∧ decimalValue text ≤ 65535 then decimalValue text else url.defaultPort

theorem parsePortOr_eq_default : parsePortOr text url.defaultPort = url.defaultPort ↔ url.NoNumber text := by
  rw [parsePortOr, NoNumber]
  cases stoi text with
  | none => exact ⟨fun _ => Or.inl rfl, fun _ => rfl⟩
  | some value =>
    rw [Option.getD_some, Option.some.injEq]
    exact ⟨Or.inr, fun h => h.resolve_left fun h => (by cases h)⟩

theorem parsePortOr_eq_portNumber :
    parsePortOr text url.defaultPort = url.portNumber text ↔
      (IsDecimal text ∧ 1 ≤ decimalValue text ∧ decimalValue text ≤ 65535) ∨ url.NoNumber text := by
  rw [portNumber]
  split
  next h =>
    have hread : stoi text = some (decimalValue text : Int) := by
      have hrange : -2 ^ 31 ≤ (decimalValue text : Int) ∧ (decimalValue text : Int) < 2 ^ 31 := by
        constructor <;> omega
      rw [stoi, leadingNumber_of_isDecimal h.1, Option.bind_some]
      simp only [Bool.false_eq_true, if_false]
      exact if_pos hrange
    rw [parsePortOr, hread]
    exact ⟨fun _ => Or.inl h, fun _ => rfl⟩
  next h => rw [parsePortOr_eq_default, or_iff_right h]

/-- The port that is read, where the host is that of the URL. -/
def portRead (url : UrlText) : Int :=
  match (splitAuthority url.authority).2 with
  | some text => parsePortOr text url.defaultPort
  | none => url.defaultPort

theorem port_eq : url.port =
    match url.portText with
    | some text => url.portNumber text
    | none => url.defaultPort := rfl

/-- What the colon behind a host says of the port. -/
theorem portText_of_drop {rest : Bytes} (hhost : url.hostPort = url.host ++ rest) :
    url.portText = if rest.head? = some colon then some rest.tail else none := by
  rw [portText, ← List.drop_drop, hhost, List.drop_left, List.drop_one]

/-- The port that is read is that of the URL for one text that both read. -/
theorem portRead_of_same {text : Option Bytes} (hcode : (splitAuthority url.authority).2 = text) (hspec : url.portText = text) :
    url.portRead = url.port ↔ ∀ text, url.portText = some text →
      (IsDecimal text ∧ 1 ≤ decimalValue text ∧ decimalValue text ≤ 65535) ∨ url.NoNumber text := by
  rw [portRead, port_eq, hcode, hspec]
  cases text with
  | none => exact ⟨fun _ text h => (by cases h), fun _ => rfl⟩
  | some text =>
    simp only
    rw [parsePortOr_eq_portNumber]
    exact ⟨fun h other hother => Option.some.inj hother ▸ h, fun h => h text rfl⟩

theorem portRead_eq (hhost : (splitAuthority url.authority).1 = url.host) :
    url.portRead = url.port ↔
      (∀ text, url.portText = some text →
        (IsDecimal text ∧ 1 ≤ decimalValue text ∧ decimalValue text ≤ 65535) ∨ url.NoNumber text) ∧
      (url.authority.head? = some openBracket → ∀ before middle text,
        url.authority = before ++ closeBracket :: (middle ++ colon :: text) → closeBracket ∉ before → colon ∉ middle →
          middle ≠ [] → url.NoNumber text) := by
  by_cases hopen : url.authority.head? = some openBracket
  · rw [forall_prop_of_true hopen]
    have hhostPort : url.hostPort = url.authority := if_pos hopen
    rcases splitFirst_cases closeBracket url.authority with ⟨before, after, hfirst, hbefore, heq⟩ | ⟨hnobracket, heq⟩
    · have hcode : splitAuthority url.authority = (before ++ [closeBracket], (splitFirst colon after).map (·.2)) := by
        rw [splitAuthority, if_pos hopen, heq]
      have hdrop : url.hostPort = url.host ++ after := by
        rw [← hhost, hcode, hhostPort, hfirst, List.append_assoc]
        rfl
      have hspec := portText_of_drop hdrop
      rcases splitFirst_cases colon after with ⟨middle, text, hmiddle, hfree, hsplit⟩ | ⟨hnocolon, hsplit⟩
      · have hread : (splitAuthority url.authority).2 = some text := by rw [hcode, hsplit]; rfl
        cases middle with
        | nil =>
          have hgarbage : ∀ before' middle' text', url.authority = before' ++ closeBracket :: (middle' ++ colon :: text') →
              closeBracket ∉ before' → colon ∉ middle' → middle' ≠ [] → url.NoNumber text' := by
            intro before' middle' text' hauthority hbefore' hmiddle' hne
            obtain ⟨-, hafter⟩ := splitFirst_unique (hfirst.symm.trans hauthority) hbefore hbefore'
            obtain ⟨hnil, -⟩ := splitFirst_unique (hmiddle.symm.trans hafter) hfree hmiddle'
            exact absurd hnil.symm hne
          rw [and_iff_left hgarbage]
          refine portRead_of_same hread (hspec.trans ?_)
          rw [hmiddle, List.nil_append, List.head?_cons, if_pos rfl, List.tail_cons]
        | cons c middle =>
          have hc : c ≠ colon := fun h => hfree (h ▸ List.mem_cons_self)
          have hnone : url.portText = none := by
            rw [hspec, hmiddle, List.cons_append, List.head?_cons, if_neg (by simpa using hc)]
          have hvacuous : ∀ text, url.portText = some text →
              (IsDecimal text ∧ 1 ≤ decimalValue text ∧ decimalValue text ≤ 65535) ∨ url.NoNumber text := by
            intro text htext
            rw [hnone] at htext
            cases htext
          rw [and_iff_right hvacuous, portRead, port_eq, hread, hnone]
          simp only
          rw [parsePortOr_eq_default]
          constructor
          · intro hnumber before' middle' text' hauthority hbefore' hmiddle' _
            obtain ⟨-, hafter⟩ := splitFirst_unique (hfirst.symm.trans hauthority) hbefore hbefore'
            obtain ⟨-, rfl⟩ := splitFirst_unique (hmiddle.symm.trans hafter) hfree hmiddle'
            exact hnumber
          · intro hall
            refine hall before (c :: middle) text ?_ hbefore hfree (List.cons_ne_nil _ _)
            rw [hfirst, hmiddle]
      · have hread : (splitAuthority url.authority).2 = none := by rw [hcode, hsplit]; rfl
        have hgarbage : ∀ before' middle' text', url.authority = before' ++ closeBracket :: (middle' ++ colon :: text') →
            closeBracket ∉ before' → colon ∉ middle' → middle' ≠ [] → url.NoNumber text' := by
          intro before' middle' text' hauthority hbefore' _ _
          obtain ⟨-, rfl⟩ := splitFirst_unique (hfirst.symm.trans hauthority) hbefore hbefore'
          exact absurd (List.mem_append_right _ List.mem_cons_self) hnocolon
        rw [and_iff_left hgarbage]
        refine portRead_of_same hread (hspec.trans (if_neg fun hhead => ?_))
        exact hnocolon (List.mem_of_mem_head? hhead)
    · have hcode : splitAuthority url.authority = (url.authority, none) := by
        rw [splitAuthority, if_pos hopen, heq]
      have hgarbage : ∀ before' middle' text', url.authority = before' ++ closeBracket :: (middle' ++ colon :: text') →
          closeBracket ∉ before' → colon ∉ middle' → middle' ≠ [] → url.NoNumber text' := by
        intro before' middle' text' hauthority _ _ _
        exact absurd (hauthority ▸ List.mem_append_right _ List.mem_cons_self) hnobracket
      have hdrop : url.hostPort = url.host ++ [] := by rw [← hhost, hcode, hhostPort, List.append_nil]
      rw [and_iff_left hgarbage]
      exact portRead_of_same (congrArg Prod.snd hcode) (portText_of_drop hdrop)
  · rw [and_iff_left fun h => absurd h hopen]
    have hcode := splitAuthority_hostPort hopen
    rcases splitLast_cases colon url.hostPort with ⟨front, text, hlast, htext, heq⟩ | ⟨hnocolon, heq⟩
    · rw [heq] at hcode
      have hdrop : url.hostPort = url.host ++ colon :: text := by
        rw [← hhost, hcode]
        exact hlast
      have hspec := portText_of_drop hdrop
      rw [List.head?_cons, if_pos rfl, List.tail_cons] at hspec
      exact portRead_of_same (congrArg Prod.snd hcode) hspec
    · rw [heq] at hcode
      have hdrop : url.hostPort = url.host ++ [] := by rw [← hhost, hcode, List.append_nil]
      exact portRead_of_same (congrArg Prod.snd hcode) (portText_of_drop hdrop)

/-- The parser takes the authority of a URL as it is, and finds its host, its port and its
    query, just where the URL is plain. -/
theorem parseUrl_eq_iff (url : UrlText) :
    ((splitPath (splitScheme url.text).2).1 = url.authority ∧ (parseUrl url.text).host = url.host ∧
      (parseUrl url.text).port = url.port ∧ (parseUrl url.text).query = url.query) ↔ url.Plain := by
  have hparsed : parseUrl url.text =
      { scheme := url.scheme.map Protocol.toLower
        host := (splitAuthority (splitPath (url.authority ++ url.suffix)).1).1
        port := match (splitAuthority (splitPath (url.authority ++ url.suffix)).1).2 with
          | some portStr => parsePortOr portStr url.defaultPort
          | none => url.defaultPort
        path := (splitQuery (splitPath (url.authority ++ url.suffix)).2).1
        query := (splitQuery (splitPath (url.authority ++ url.suffix)).2).2 } := by
    rw [parseUrl, splitScheme_text]
    rfl
  rw [hparsed, splitScheme_text, splitPath_fst]
  by_cases hsuffix : ∀ c ∈ url.suffix.head?, c = slash
  · rw [and_iff_right hsuffix, splitPath_eq hsuffix]
    simp only
    rw [splitQuery_snd, splitAuthority_fst]
    constructor
    · rintro ⟨hhost, hport, hquery⟩
      obtain ⟨hnumber, hgarbage⟩ := (portRead_eq (splitAuthority_fst.mpr hhost)).mp hport
      exact ⟨hsuffix, hquery, hhost, hnumber, hgarbage⟩
    · rintro ⟨-, hquery, hhost, hnumber, hgarbage⟩
      exact ⟨hhost, (portRead_eq (splitAuthority_fst.mpr hhost)).mpr ⟨hnumber, hgarbage⟩, hquery⟩
  · exact ⟨fun h => absurd h.1 hsuffix, fun h => absurd h.suffix hsuffix⟩

/-- `http://good?@evil`. -/
def queryWithAt : UrlText where
  scheme := http
  authority := [103, 111, 111, 100]
  suffix := [63, 64, 101, 118, 105, 108]
  scheme_free := by decide
  authority_free := by
    intro c hc
    rw [List.mem_cons, List.mem_cons, List.mem_cons, List.mem_singleton] at hc
    rcases hc with rfl | rfl | rfl | rfl
    all_goals exact ⟨by decide, by decide, by decide⟩
  suffix_start := by
    rintro c hc
    exact Or.inr (Or.inl (Option.some.inj hc).symm)

/-- The host is `good`, and the parser takes `evil` from the query. -/
theorem host_from_query :
    queryWithAt.host = [103, 111, 111, 100] ∧ (parseUrl queryWithAt.text).host = [101, 118, 105, 108] := by
  decide

end Parts

end UrlText

end Luma.Url
