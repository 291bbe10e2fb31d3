-- SUMMARY: The check and the text of an HTTP request, and when the text is read as the request that was asked for.
import Luma.Library.HttpReading
import Luma.Stdlib.Url

/-! # HTTP requests

A request is checked for line breaks and then put together from its parts. The check keeps
the lines of the text apart. It does not look for what ends a part within a line, nor for
fields that the text has already. -/

namespace Luma.HttpRequest

open Codec Url TextNumbers HttpGrammar

/-! ## The check -/

inductive HttpErrorKind where
  | invalidUrl
  | connectionFailed
  | timeout
  | tlsError
  | blocked
  | malformed
  deriving DecidableEq

structure HttpFailure where
  kind : HttpErrorKind
  message : Bytes
  deriving DecidableEq

/-- Whether TLS is built in, and the limit on the length of a host name. -/
structure HttpSettings where
  hasTls : Bool
  maxHostnameLength : Nat

abbrev Headers := List (Bytes × Bytes)

def messageText (s : String) : Bytes := s.toUTF8.data.toList

/-- A carriage return or a line feed. -/
def hasLineBreak (text : Bytes) : Bool := text.contains 13 || text.contains 10

def validateHostnameLength (settings : HttpSettings) (host : Bytes) : Bytes :=
  if host.length > settings.maxHostnameLength then messageText "Http: hostname too long" else []

def validateRequestLineSecurity (method host path query : Bytes) : Bytes :=
  match [("method", method), ("host", host), ("path", path), ("query", query)].find? fun part => hasLineBreak part.2 with
  | some part => messageText "Http: " ++ messageText part.1 ++ messageText " contains illegal CR/LF characters"
  | none => []

def validateHeadersSecurity (headers : Headers) : Bytes :=
  match headers.find? fun header => hasLineBreak header.1 || hasLineBreak header.2 with
  | some header => messageText "Http: header '" ++ header.1 ++ messageText "' contains illegal CR/LF characters"
  | none => []

/-- The failures of the scheme. -/
def validateScheme (settings : HttpSettings) (parsed : ParsedUrl) (isHttps : Bool) : Option HttpFailure :=
  if isHttps then
    if settings.hasTls then none
    else some { kind := .tlsError, message := messageText "Http: HTTPS requires TLS support (build with LUMA_FEATURE_TLS=ON)" }
  else if parsed.scheme ≠ http then
    some { kind := .invalidUrl, message := messageText "Http: unsupported scheme '" ++ parsed.scheme ++ messageText "'" }
  else none

/-- The failure of a request, if it is not safe to send. -/
def validateHttpRequest (settings : HttpSettings) (method : Bytes) (parsed : ParsedUrl) (isHttps : Bool) (extraHeaders : Headers) :
    Option HttpFailure :=
  match validateScheme settings parsed isHttps with
  | some failure => some failure
  | none =>
    if parsed.host.isEmpty then some { kind := .invalidUrl, message := messageText "Http: empty host" }
    else
      let hostnameErr := validateHostnameLength settings parsed.host
      if !hostnameErr.isEmpty then some { kind := .invalidUrl, message := hostnameErr }
      else
        let crlfErr := validateRequestLineSecurity method parsed.host parsed.path parsed.query
        if !crlfErr.isEmpty then some { kind := .blocked, message := crlfErr }
        else
          let headerErr := validateHeadersSecurity extraHeaders
          if !headerErr.isEmpty then some { kind := .blocked, message := headerErr } else none

/-! ## The text -/

/-- `"\r\n"` -/
def lineEnd : Bytes := [13, 10]

/-- `" HTTP/1.1"` -/
def versionText : Bytes := [32, 72, 84, 84, 80, 47, 49, 46, 49]

/-- `Host`, `Connection`, `User-Agent`, `Content-Length` and `Content-Type`. -/
def hostField : Bytes := [72, 111, 115, 116]
def connectionField : Bytes := [67, 111, 110, 110, 101, 99, 116, 105, 111, 110]
def userAgentField : Bytes := [85, 115, 101, 114, 45, 65, 103, 101, 110, 116]
def contentLengthField : Bytes := [67, 111, 110, 116, 101, 110, 116, 45, 76, 101, 110, 103, 116, 104]
def contentTypeField : Bytes := [67, 111, 110, 116, 101, 110, 116, 45, 84, 121, 112, 101]

/-- `content-type` -/
def contentTypeName : Bytes := [99, 111, 110, 116, 101, 110, 116, 45, 116, 121, 112, 101]

/-- `close`, `Luma/1.0` and `application/octet-stream`. -/
def closeText : Bytes := [99, 108, 111, 115, 101]
def userAgentText : Bytes := [76, 117, 109, 97, 47, 49, 46, 48]
def octetStreamText : Bytes :=
  [97, 112, 112, 108, 105, 99, 97, 116, 105, 111, 110, 47, 111, 99, 116, 101, 116, 45, 115, 116, 114, 101, 97, 109]

/-- `std::to_string` of an integer. -/
def integerText (n : Int) : Bytes := if n < 0 then 45 :: decimalText n.natAbs else decimalText n.natAbs

/-- A colon and the port, if it is not the default one. -/
def portSuffix (parsed : ParsedUrl) : Bytes :=
  if parsed.port ≠ defaultPortForScheme parsed.scheme then colon :: integerText parsed.port else []

/-- `name: value` -/
def headerText (header : Bytes × Bytes) : Bytes := header.1 ++ [58, 32] ++ header.2

def hasContentType (extraHeaders : Headers) : Bool :=
  extraHeaders.any fun header => Protocol.caseInsensitiveEqual header.1 contentTypeName

def requestPath (parsed : ParsedUrl) : Bytes :=
  if parsed.query.isEmpty then parsed.path else parsed.path ++ (question :: parsed.query)

def requestTarget (parsed : ParsedUrl) (proxyAbsolute : Bool) : Bytes :=
  if proxyAbsolute then
    let scheme := if parsed.scheme.isEmpty then http else parsed.scheme
    scheme ++ schemeEnd ++ parsed.host ++ portSuffix parsed ++ requestPath parsed
  else requestPath parsed

def buildHttpRequestString (method : Bytes) (parsed : ParsedUrl) (body : Bytes) (extraHeaders : Headers) (proxyAbsolute : Bool) : Bytes :=
  let request := method ++ [32] ++ requestTarget parsed proxyAbsolute ++ versionText ++ lineEnd
  let request := request ++ headerText (hostField, parsed.host ++ portSuffix parsed) ++ lineEnd
  let request := request ++ headerText (connectionField, closeText) ++ lineEnd
  let request := request ++ headerText (userAgentField, userAgentText) ++ lineEnd
  let request :=
    if body.isEmpty then request
    else
      let request := request ++ headerText (contentLengthField, decimalText body.length) ++ lineEnd
      if hasContentType extraHeaders then request else request ++ headerText (contentTypeField, octetStreamText) ++ lineEnd
  let request := extraHeaders.foldl (fun request header => request ++ headerText header ++ lineEnd) request
  request ++ lineEnd ++ body

/-! ## The request that was asked for -/

/-- The fields that tell the length and the type of a body. -/
def contentFields (body : Bytes) (extraHeaders : Headers) : Headers :=
  if body = [] then []
  else (contentLengthField, decimalText body.length) ::
    if hasContentType extraHeaders then [] else [(contentTypeField, octetStreamText)]

/-- The fields of a request: those of its own, and then those of the caller. -/
def requestFields (parsed : ParsedUrl) (body : Bytes) (extraHeaders : Headers) : Headers :=
  (hostField, parsed.host ++ portSuffix parsed) :: (connectionField, closeText) :: (userAgentField, userAgentText) ::
    (contentFields body extraHeaders ++ extraHeaders)

/-- The white space around a value is not a part of it. -/
def fieldOf (header : Bytes × Bytes) : Field := (header.1, stripBlanks header.2)

/-- An authority for the host and the port of a URL. -/
def Denotes (authority : Authority) (parsed : ParsedUrl) : Prop :=
  authority.host = parsed.host ∧ (authority.port.map Int.ofNat).getD (defaultPortForScheme parsed.scheme) = parsed.port

def intendedTarget (parsed : ParsedUrl) (proxyAbsolute : Bool) (authority : Authority) : Target :=
  let query := if parsed.query = [] then none else some parsed.query
  if proxyAbsolute then .absolute parsed.scheme authority parsed.path query else .origin parsed.path query

def intendedRequest (method : Bytes) (parsed : ParsedUrl) (body : Bytes) (extraHeaders : Headers) (proxyAbsolute : Bool)
    (authority : Authority) : Request where
  method := method
  target := intendedTarget parsed proxyAbsolute authority
  host := authority
  fields := (requestFields parsed body extraHeaders).map fieldOf
  body := body

/-- The text is read as the request that was asked for, and as nothing else. -/
def ReadAsIntended (method : Bytes) (parsed : ParsedUrl) (body : Bytes) (extraHeaders : Headers) (proxyAbsolute : Bool) : Prop :=
  ∃ authority, Denotes authority parsed ∧
    ReadsAs (buildHttpRequestString method parsed body extraHeaders proxyAbsolute)
      (intendedRequest method parsed body extraHeaders proxyAbsolute authority)

/-- Each part has the characters that its place allows, and no header of the caller is one that delimits the request. -/
structure Expressible (method : Bytes) (parsed : ParsedUrl) (body : Bytes) (extraHeaders : Headers) : Prop where
  method_token : Token method
  method_target : method ≠ connect
  host : UriHost parsed.host
  port : parsed.port ≠ defaultPortForScheme parsed.scheme → 0 ≤ parsed.port
  path : AbsolutePath parsed.path
  query : Encoded isQueryChar parsed.query
  names : ∀ header ∈ extraHeaders, Token header.1
  values : ∀ header ∈ extraHeaders, ∀ c ∈ header.2, isFieldChar c = true
  no_host : valuesOf hostName extraHeaders = []
  no_coding : valuesOf transferEncodingName extraHeaders = []
  no_length : body ≠ [] → valuesOf contentLengthName extraHeaders = []
  zero_length : body = [] → valuesOf contentLengthName extraHeaders = [] ∨
    ∃ value, valuesOf contentLengthName extraHeaders = [value] ∧ Digits (stripBlanks value) ∧ decimal (stripBlanks value) = 0

/-! ## The lines of the text -/

section Lines

variable {settings : HttpSettings} {method body : Bytes} {parsed : ParsedUrl} {isHttps proxyAbsolute : Bool} {extraHeaders : Headers}

def requestLine (method : Bytes) (parsed : ParsedUrl) (proxyAbsolute : Bool) : Bytes :=
  method ++ 32 :: (requestTarget parsed proxyAbsolute ++ 32 :: version)

theorem foldl_headers (request : Bytes) (headers : Headers) :
    headers.foldl (fun request header => request ++ headerText header ++ lineEnd) request =
      request ++ (headers.map headerText).flatMap (· ++ crlf) := by
  induction headers generalizing request with
  | nil => rw [List.foldl_nil, List.map_nil, List.flatMap_nil, List.append_nil]
  | cons header headers ih =>
    rw [List.foldl_cons, ih, List.map_cons, List.flatMap_cons, List.append_assoc request, List.append_assoc request]
    rfl

/-- The text is a request line, the lines of the fields and the body. -/
theorem build_eq :
    buildHttpRequestString method parsed body extraHeaders proxyAbsolute =
      requestLine method parsed proxyAbsolute ++
        (crlf ++ (lineSection ((requestFields parsed body extraHeaders).map headerText) ++ body)) := by
  have hcontent : ∀ request : Bytes,
      (if body.isEmpty then request
      else
        let request := request ++ headerText (contentLengthField, decimalText body.length) ++ lineEnd
        if hasContentType extraHeaders then request
        else request ++ headerText (contentTypeField, octetStreamText) ++ lineEnd) =
        request ++ ((contentFields body extraHeaders).map headerText).flatMap (· ++ crlf) := by
    intro request
    rw [contentFields]
    cases body with
    | nil => rw [if_pos rfl, List.isEmpty_nil, if_pos rfl, List.map_nil, List.flatMap_nil, List.append_nil]
    | cons c body =>
      rw [if_neg (List.cons_ne_nil c body), List.isEmpty_cons, if_neg Bool.false_ne_true]
      cases hasContentType extraHeaders with
      | true => simp [lineEnd, crlf]
      | false => simp [lineEnd, crlf]
  rw [buildHttpRequestString, hcontent, foldl_headers, requestLine, lineSection, requestFields]
  simp only [List.map_cons, List.map_append, List.flatMap_cons, List.flatMap_append, List.append_assoc, List.cons_append, List.nil_append]
  rfl

theorem messageText_http : messageText "Http: " ≠ [] := by decide

theorem messageText_header : messageText "Http: header '" ≠ [] := by decide

theorem free_of_hasLineBreak {text : Bytes} (h : ¬ hasLineBreak text = true) : (13 : UInt8) ∉ text := by
  intro hmem
  rw [hasLineBreak, Bool.or_eq_true, not_or, List.contains_iff_mem] at h
  exact h.1 hmem

/-- What a request that is accepted has. -/
structure Accepted (method : Bytes) (parsed : ParsedUrl) (isHttps : Bool) (extraHeaders : Headers) : Prop where
  scheme : isHttps = true ∨ parsed.scheme = http
  method : (13 : UInt8) ∉ method
  host : (13 : UInt8) ∉ parsed.host
  path : (13 : UInt8) ∉ parsed.path
  query : (13 : UInt8) ∉ parsed.query
  headers : ∀ header ∈ extraHeaders, (13 : UInt8) ∉ header.1 ∧ (13 : UInt8) ∉ header.2

theorem validateRequestLineSecurity_free {host path query : Bytes} (h : (validateRequestLineSecurity method host path query).isEmpty = true) :
    (13 : UInt8) ∉ method ∧ (13 : UInt8) ∉ host ∧ (13 : UInt8) ∉ path ∧ (13 : UInt8) ∉ query := by
  rw [validateRequestLineSecurity] at h
  split at h
  · rw [List.isEmpty_iff, List.append_assoc] at h
    exact absurd (List.append_eq_nil_iff.mp h).1 messageText_http
  next hfind =>
    rw [List.find?_eq_none] at hfind
    have hpart := fun part hpart => free_of_hasLineBreak (hfind part hpart)
    simp only [List.forall_mem_cons] at hpart
    exact ⟨hpart.1, hpart.2.1, hpart.2.2.1, hpart.2.2.2.1⟩

theorem validateHeadersSecurity_free (h : (validateHeadersSecurity extraHeaders).isEmpty = true) :
    ∀ header ∈ extraHeaders, (13 : UInt8) ∉ header.1 ∧ (13 : UInt8) ∉ header.2 := by
  rw [validateHeadersSecurity] at h
  split at h
  · rw [List.isEmpty_iff, List.append_assoc] at h
    exact absurd (List.append_eq_nil_iff.mp h).1 messageText_header
  next hfind =>
    intro header hheader
    have hnone := List.find?_eq_none.mp hfind header hheader
    rw [Bool.or_eq_true, not_or] at hnone
    exact ⟨free_of_hasLineBreak hnone.1, free_of_hasLineBreak hnone.2⟩

/-- Nothing fails, so this test does not. -/
theorem none_of_ite {α : Type} {test : Prop} [Decidable test] {x : α} {y : Option α} (h : (if test then some x else y) = none) :
    ¬ test ∧ y = none := by
  split at h
  · cases h
  next htest => exact ⟨htest, h⟩

theorem accepted_of_validate (h : validateHttpRequest settings method parsed isHttps extraHeaders = none) :
    Accepted method parsed isHttps extraHeaders := by
  rw [validateHttpRequest] at h
  split at h
  · cases h
  next hscheme =>
    obtain ⟨-, h⟩ := none_of_ite h
    obtain ⟨-, h⟩ := none_of_ite h
    obtain ⟨hcrlf, h⟩ := none_of_ite h
    obtain ⟨hheaders, -⟩ := none_of_ite h
    rw [Bool.not_eq_true, Bool.not_eq_false'] at hcrlf hheaders
    obtain ⟨hmethod, hhost, hpath, hquery⟩ := validateRequestLineSecurity_free hcrlf
    refine ⟨?_, hmethod, hhost, hpath, hquery, validateHeadersSecurity_free hheaders⟩
    rw [validateScheme] at hscheme
    split at hscheme
    next hhttps => exact .inl hhttps
    · exact .inr (not_not.mp (none_of_ite hscheme).1)

theorem integerText_free {n : Int} : (13 : UInt8) ∉ integerText n := by
  have hdigits : (13 : UInt8) ∉ decimalText n.natAbs := by
    intro hmem
    cases decimalText_isDigit 13 hmem
  rw [integerText]
  split
  · rw [List.mem_cons, not_or]
    exact ⟨by decide, hdigits⟩
  · exact hdigits

theorem portSuffix_free : (13 : UInt8) ∉ portSuffix parsed := by
  rw [portSuffix]
  split
  · rw [List.mem_cons, not_or]
    exact ⟨by decide, integerText_free⟩
  · exact List.not_mem_nil

theorem requestPath_free (hpath : (13 : UInt8) ∉ parsed.path) (hquery : (13 : UInt8) ∉ parsed.query) :
    (13 : UInt8) ∉ requestPath parsed := by
  rw [requestPath]
  split
  · exact hpath
  · rw [List.mem_append, List.mem_cons, not_or, not_or]
    exact ⟨hpath, by decide, hquery⟩

/-- The schemes of requests. -/
def IsHttpScheme (scheme : Bytes) : Prop := scheme = http ∨ scheme = https

theorem IsHttpScheme.scheme {scheme : Bytes} (h : IsHttpScheme scheme) : Scheme scheme ∧ (13 : UInt8) ∉ scheme ∧ scheme.isEmpty = false := by
  have hletters : ∀ {x : Bytes}, x ≠ [] → (x.all fun c => 97 ≤ c && c ≤ 122) = true → Scheme x ∧ (13 : UInt8) ∉ x ∧ x.isEmpty = false := by
    intro x hne hx
    rw [List.all_eq_true] at hx
    have halpha : ∀ c ∈ x, isAlpha c = true := fun c hc => by rw [isAlpha, hx c hc, Bool.or_true]
    refine ⟨⟨?_, fun c hc => by rw [halpha c hc]; rfl⟩, notMem_of_all halpha (by decide), List.isEmpty_eq_false_iff.mpr hne⟩
    obtain ⟨c, x, rfl⟩ := List.exists_cons_of_ne_nil hne
    exact ⟨c, rfl, halpha c List.mem_cons_self⟩
  rcases h with rfl | rfl
  · exact hletters (by decide) (by decide)
  · exact hletters (by decide) (by decide)

theorem requestLine_free (h : Accepted method parsed isHttps extraHeaders) (hscheme : IsHttpScheme parsed.scheme) :
    (13 : UInt8) ∉ requestLine method parsed proxyAbsolute := by
  have hpath := requestPath_free h.path h.query
  have htarget : (13 : UInt8) ∉ requestTarget parsed proxyAbsolute := by
    rw [requestTarget]
    cases proxyAbsolute with
    | false => exact hpath
    | true =>
      simp only [if_pos, hscheme.scheme.2.2, Bool.false_eq_true, if_false, List.mem_append, not_or]
      exact ⟨⟨⟨⟨hscheme.scheme.2.1, by decide⟩, h.host⟩, portSuffix_free⟩, hpath⟩
  simp only [requestLine, List.mem_append, List.mem_cons, not_or]
  exact ⟨h.method, by decide, htarget, by decide, by decide⟩

theorem decimalText_free {n : Nat} : (13 : UInt8) ∉ decimalText n := by
  intro hmem
  cases decimalText_isDigit 13 hmem

theorem contentFields_free : ∀ header ∈ contentFields body extraHeaders, (13 : UInt8) ∉ header.1 ∧ (13 : UInt8) ∉ header.2 := by
  rw [contentFields]
  split
  · exact fun _ h => absurd h List.not_mem_nil
  · refine List.forall_mem_cons.mpr ⟨⟨show (13 : UInt8) ∉ contentLengthField by decide, decimalText_free⟩, ?_⟩
    split
    · exact fun _ h => absurd h List.not_mem_nil
    · exact List.forall_mem_singleton.mpr ⟨by decide, by decide⟩

/-- What is accepted keeps the lines of the text apart. -/
theorem isLine_of_accepted (h : Accepted method parsed isHttps extraHeaders) :
    ∀ line ∈ (requestFields parsed body extraHeaders).map headerText, IsLine line := by
  have hheader : ∀ header : Bytes × Bytes, (13 : UInt8) ∉ header.1 ∧ (13 : UInt8) ∉ header.2 → IsLine (headerText header) := by
    intro header hfree
    refine ⟨by simp [headerText], ?_⟩
    rw [headerText, List.mem_append, List.mem_append, not_or, not_or]
    exact ⟨⟨hfree.1, by decide⟩, hfree.2⟩
  have hhost : (13 : UInt8) ∉ parsed.host ++ portSuffix parsed := by
    rw [List.mem_append, not_or]
    exact ⟨h.host, portSuffix_free⟩
  rw [List.forall_mem_map, requestFields]
  refine fun header hmem => hheader header ?_
  revert hmem
  revert header
  refine List.forall_mem_cons.mpr ⟨⟨show (13 : UInt8) ∉ hostField by decide, hhost⟩, List.forall_mem_cons.mpr ⟨⟨by decide, by decide⟩, ?_⟩⟩
  refine List.forall_mem_cons.mpr ⟨⟨by decide, by decide⟩, List.forall_mem_append.mpr ⟨contentFields_free, h.headers⟩⟩

end Lines

/-! ## The fields of the text -/

section Fields

variable {method body : Bytes} {parsed : ParsedUrl} {proxyAbsolute : Bool} {extraHeaders : Headers} {authority : Authority}

theorem valuesOf_fieldOf (name : Octets) (headers : Headers) :
    valuesOf name (headers.map fieldOf) = (valuesOf name headers).map stripBlanks := by
  rw [valuesOf, valuesOf, List.filter_map, List.map_map, List.map_map]
  rfl

theorem valuesOf_host : valuesOf hostName (requestFields parsed body extraHeaders) =
    (parsed.host ++ portSuffix parsed) :: valuesOf hostName extraHeaders := by
  have hcontent : valuesOf hostName (contentFields body extraHeaders) = [] := by
    rw [contentFields]
    split
    · rfl
    · rw [valuesOf_cons_other rfl]
      split
      · rfl
      · exact valuesOf_cons_other rfl
  rw [requestFields, valuesOf_cons_same rfl, valuesOf_cons_other rfl, valuesOf_cons_other rfl, valuesOf_append, hcontent,
    List.nil_append]

theorem valuesOf_coding : valuesOf transferEncodingName (requestFields parsed body extraHeaders) =
    valuesOf transferEncodingName extraHeaders := by
  have hcontent : valuesOf transferEncodingName (contentFields body extraHeaders) = [] := by
    rw [contentFields]
    split
    · rfl
    · rw [valuesOf_cons_other rfl]
      split
      · rfl
      · exact valuesOf_cons_other rfl
  rw [requestFields, valuesOf_cons_other rfl, valuesOf_cons_other rfl, valuesOf_cons_other rfl, valuesOf_append, hcontent,
    List.nil_append]

theorem valuesOf_length : valuesOf contentLengthName (requestFields parsed body extraHeaders) =
    (if body = [] then [] else [decimalText body.length]) ++ valuesOf contentLengthName extraHeaders := by
  have hcontent : valuesOf contentLengthName (contentFields body extraHeaders) =
      if body = [] then [] else [decimalText body.length] := by
    rw [contentFields]
    split
    · rfl
    · rw [valuesOf_cons_same rfl]
      split
      · rfl
      · rw [valuesOf_cons_other rfl]
        rfl
  rw [requestFields, valuesOf_cons_other rfl, valuesOf_cons_other rfl, valuesOf_cons_other rfl, valuesOf_append, hcontent]

end Fields

/-! ## What is read is expressible -/

section Read

variable {method body : Bytes} {parsed : ParsedUrl} {isHttps proxyAbsolute : Bool} {extraHeaders : Headers} {authority : Authority}

theorem fields_delimit {content : Octets} (hframed : Framed ((requestFields parsed body extraHeaders).map fieldOf) content body)
    (hcontent : body = [] → content = []) :
    valuesOf transferEncodingName extraHeaders = [] ∧ (body ≠ [] → valuesOf contentLengthName extraHeaders = []) ∧
      (body = [] → valuesOf contentLengthName extraHeaders = [] ∨ ∃ value, valuesOf contentLengthName extraHeaders = [value] ∧
        Digits (stripBlanks value) ∧ decimal (stripBlanks value) = 0) := by
  generalize hfields : (requestFields parsed body extraHeaders).map fieldOf = fields at hframed
  have hcodings : valuesOf transferEncodingName fields = (valuesOf transferEncodingName extraHeaders).map stripBlanks := by
    rw [← hfields, valuesOf_fieldOf, valuesOf_coding]
  have hlengths : valuesOf contentLengthName fields =
      ((if body = [] then [] else [decimalText body.length]) ++ valuesOf contentLengthName extraHeaders).map stripBlanks := by
    rw [← hfields, valuesOf_fieldOf, valuesOf_length]
  cases hframed with
  | none hcoding hlength =>
    rw [hcodings, List.map_eq_nil_iff] at hcoding
    rw [hlengths, List.map_eq_nil_iff, List.append_eq_nil_iff] at hlength
    exact ⟨hcoding, fun _ => hlength.2, fun _ => .inl hlength.2⟩
  | @length value _ hcoding hlength hdigits hvalue =>
    rw [hcodings, List.map_eq_nil_iff] at hcoding
    rw [hlengths] at hlength
    refine ⟨hcoding, fun hne => ?_, fun hnil => ?_⟩
    · rw [if_neg hne] at hlength
      exact List.map_eq_nil_iff.mp (List.cons.inj hlength).2
    · rw [if_pos hnil, List.nil_append] at hlength
      obtain ⟨v, hv, rfl⟩ := List.map_eq_singleton_iff.mp hlength
      rw [hnil] at hvalue
      exact .inr ⟨v, hv, hdigits, hvalue⟩
  | chunked _ hlength hbody =>
    rw [hlengths, List.map_eq_nil_iff, List.append_eq_nil_iff] at hlength
    have hnil : body = [] := by
      by_contra hne
      rw [if_neg hne] at hlength
      exact List.cons_ne_nil _ _ hlength.1
    exact absurd (hcontent hnil) hbody.ne_nil

theorem target_expressible {text : Octets} (hpath : parsed.path ≠ []) (h : TargetText method text (intendedTarget parsed proxyAbsolute authority)) :
    method ≠ connect ∧ AbsolutePath parsed.path ∧ Encoded isQueryChar parsed.query := by
  have hquery : ∀ {q : Octets}, QueryText q (if parsed.query = [] then none else some parsed.query) → Encoded isQueryChar parsed.query := by
    intro q hq
    split at hq
    next hnil =>
      rw [hnil]
      exact .nil
    · cases hq with
      | some hs => exact hs
  cases proxyAbsolute with
  | false =>
    cases h with
    | origin hmethod hp hq => exact ⟨hmethod, hp, hquery hq⟩
  | true =>
    cases h with
    | absolute hmethod _ _ hp hq => exact ⟨hmethod, hp.resolve_left hpath, hquery hq⟩

theorem expressible_of_read (haccepted : Accepted method parsed isHttps extraHeaders) (hscheme : IsHttpScheme parsed.scheme)
    (hpath : parsed.path ≠ []) (h : ReadAsIntended method parsed body extraHeaders proxyAbsolute) :
    Expressible method parsed body extraHeaders := by
  obtain ⟨authority, ⟨hname, hport⟩, hreads, -⟩ := h
  obtain ⟨line, lines, host, content, htext, hline, hlines, hhosts, hhost, hframed⟩ := hreads.parts
  have hfree := hline.free
  obtain ⟨hmethod, text, htarget, -⟩ := hline
  obtain ⟨hconnect, hp, hquery⟩ := target_expressible hpath htarget
  have hlegal : ∀ header ∈ extraHeaders, Token header.1 ∧ ∀ c ∈ header.2, isFieldChar c = true := by
    intro header hheader
    have hmem : header ∈ requestFields parsed body extraHeaders :=
      List.mem_cons_of_mem _ (List.mem_cons_of_mem _ (List.mem_cons_of_mem _ (List.mem_append_right _ hheader)))
    obtain ⟨_, htoken, hvalue, -⟩ := exists_fieldLine hlines (List.mem_map_of_mem hmem)
    exact ⟨htoken, fieldChars_of_stripBlanks hvalue⟩
  have hhost' : valuesOf hostName extraHeaders = [] := by
    have hvalues : valuesOf hostName ((requestFields parsed body extraHeaders).map fieldOf) = [host] := hhosts
    rw [valuesOf_fieldOf, valuesOf_host, List.map_cons] at hvalues
    exact List.map_eq_nil_iff.mp (List.cons.inj hvalues).2
  -- Where there is no body the text ends behind its own lines, so what is left is empty.
  have hcontent : body = [] → content = [] := by
    intro hnil
    rw [build_eq] at htext
    obtain ⟨-, hsections⟩ := line_cut (requestLine_free haccepted hscheme) hfree htext
    rw [← (lineSection_cut (isLine_of_accepted haccepted) (isLine_of_fieldLines hlines) hsections).2]
    exact hnil
  obtain ⟨hcoding, hlength, hzero⟩ := fields_delimit hframed hcontent
  refine ⟨hmethod, hconnect, hname ▸ hhost.1, fun hdefault => ?_, hp, hquery, fun header hheader => (hlegal header hheader).1,
    fun header hheader => (hlegal header hheader).2, hhost', hcoding, hlength, hzero⟩
  cases hnumber : authority.port with
  | none =>
    rw [hnumber] at hport
    exact absurd hport.symm hdefault
  | some number =>
    rw [hnumber] at hport
    rw [← hport]
    exact Int.natCast_nonneg number

end Read

/-! ## What is expressible is read -/

section Expressed

variable {method body : Bytes} {parsed : ParsedUrl} {proxyAbsolute : Bool} {extraHeaders : Headers}

/-- The authority that the text shows. -/
def shownAuthority (parsed : ParsedUrl) : Authority where
  host := parsed.host
  port := if parsed.port = defaultPortForScheme parsed.scheme then none else some parsed.port.natAbs

theorem denotes_shownAuthority (h : Expressible method parsed body extraHeaders) : Denotes (shownAuthority parsed) parsed := by
  refine ⟨rfl, ?_⟩
  rw [shownAuthority]
  split
  next hdefault => exact hdefault.symm
  next hdefault => exact Int.natAbs_of_nonneg (h.port hdefault)

theorem decimalText_digits (n : Nat) : Digits (decimalText n) := ⟨decimalText_ne_nil, decimalText_isDigit⟩

theorem decimalText_chars {n : Nat} : ∀ c ∈ decimalText n, isAuthorityChar c = true :=
  fun c hc => isAuthorityChar_of_isRegNameChar (isRegNameChar_of_isDigit (decimalText_isDigit c hc))

theorem hostPort_shownAuthority (h : Expressible method parsed body extraHeaders) :
    HostPort (parsed.host ++ portSuffix parsed) (shownAuthority parsed) := by
  refine ⟨h.host, portSuffix parsed, rfl, ?_⟩
  by_cases hdefault : parsed.port = defaultPortForScheme parsed.scheme
  · rw [shownAuthority, portSuffix, if_pos hdefault, if_neg (not_not.mpr hdefault)]
    exact .none
  · rw [shownAuthority, portSuffix, if_neg hdefault, if_pos hdefault, integerText, if_neg (Int.not_lt.mpr (h.port hdefault))]
    have hvalue : decimal (decimalText parsed.port.natAbs) = parsed.port.natAbs := decimalValue_decimalText
    have hport := PortText.digits (decimalText_digits parsed.port.natAbs)
    rw [hvalue] at hport
    exact hport

theorem queryText_shown (h : Encoded isQueryChar parsed.query) :
    ∃ q, QueryText q (if parsed.query = [] then none else some parsed.query) ∧ requestPath parsed = parsed.path ++ q := by
  cases hquery : parsed.query with
  | nil =>
    refine ⟨[], .none, ?_⟩
    rw [requestPath, hquery, List.append_nil]
    rfl
  | cons c query =>
    refine ⟨question :: c :: query, ?_, ?_⟩
    · rw [if_neg (List.cons_ne_nil c query)]
      rw [hquery] at h
      exact .some h
    · rw [requestPath, hquery]
      rfl

theorem requestLine_shown (hscheme : IsHttpScheme parsed.scheme) (h : Expressible method parsed body extraHeaders) :
    RequestLine (requestLine method parsed proxyAbsolute) method (intendedTarget parsed proxyAbsolute (shownAuthority parsed)) := by
  refine ⟨h.method_token, requestTarget parsed proxyAbsolute, ?_, rfl⟩
  obtain ⟨q, hq, hpath⟩ := queryText_shown h.query
  cases proxyAbsolute with
  | false =>
    have htarget : requestTarget parsed false = parsed.path ++ q := hpath
    rw [htarget]
    exact .origin h.method_target h.path hq
  | true =>
    have htarget : requestTarget parsed true =
        parsed.scheme ++ 58 :: 47 :: 47 :: ((parsed.host ++ portSuffix parsed) ++ (parsed.path ++ q)) := by
      rw [requestTarget, if_pos rfl, hscheme.scheme.2.2, hpath]
      simp only [Bool.false_eq_true, if_false, List.append_assoc]
      rfl
    rw [htarget]
    exact .absolute h.method_target hscheme.scheme.1 (hostPort_shownAuthority h) (.inr h.path) hq

theorem fieldLine_headerText {header : Bytes × Bytes} (hname : Token header.1) (hvalue : ∀ c ∈ header.2, isFieldChar c = true) :
    FieldLine (headerText header) (fieldOf header) := by
  obtain ⟨before, after, hs, hbefore, hafter⟩ := exists_stripBlanks header.2
  refine ⟨hname, fieldValue_stripBlanks hvalue, 32 :: before, after, ?_, List.forall_mem_cons.mpr ⟨rfl, hbefore⟩, hafter⟩
  rw [headerText, List.append_assoc, fieldOf]
  nth_rewrite 1 [hs]
  rfl

/-- The fields of the text's own are legal. -/
theorem ownFields_legal (h : Expressible method parsed body extraHeaders) :
    ∀ header ∈ requestFields parsed body extraHeaders, Token header.1 ∧ ∀ c ∈ header.2, isFieldChar c = true := by
  have htoken : ∀ {name : Bytes}, name ≠ [] → name.all isTchar = true → Token name :=
    fun hne hname => ⟨hne, List.all_eq_true.mp hname⟩
  have hvalue : ∀ {value : Bytes}, value.all isFieldChar = true → ∀ c ∈ value, isFieldChar c = true := List.all_eq_true.mp
  have hlength : Token contentLengthField := htoken (by decide) (by decide)
  have htype : Token contentTypeField := htoken (by decide) (by decide)
  have hhost : Token hostField := htoken (by decide) (by decide)
  have hconnection : Token connectionField := htoken (by decide) (by decide)
  have hagent : Token userAgentField := htoken (by decide) (by decide)
  have hcontent : ∀ header ∈ contentFields body extraHeaders, Token header.1 ∧ ∀ c ∈ header.2, isFieldChar c = true := by
    rw [contentFields]
    split
    · exact fun _ hmem => absurd hmem List.not_mem_nil
    · refine List.forall_mem_cons.mpr ⟨⟨hlength, (fieldValue_of_isAuthorityChar decimalText_chars).1.1⟩, ?_⟩
      split
      · exact fun _ hmem => absurd hmem List.not_mem_nil
      · exact List.forall_mem_singleton.mpr ⟨htype, hvalue (by decide)⟩
  refine List.forall_mem_cons.mpr ⟨⟨hhost, (fieldValue_of_isAuthorityChar (hostPort_shownAuthority h).chars).1.1⟩, ?_⟩
  refine List.forall_mem_cons.mpr ⟨⟨hconnection, hvalue (by decide)⟩, List.forall_mem_cons.mpr ⟨⟨hagent, hvalue (by decide)⟩, ?_⟩⟩
  exact List.forall_mem_append.mpr ⟨hcontent, fun header hheader => ⟨h.names header hheader, h.values header hheader⟩⟩

theorem framed_shown (h : Expressible method parsed body extraHeaders) :
    Framed ((requestFields parsed body extraHeaders).map fieldOf) body body := by
  have hcodings : valuesOf transferEncodingName ((requestFields parsed body extraHeaders).map fieldOf) = [] := by
    rw [valuesOf_fieldOf, valuesOf_coding, h.no_coding, List.map_nil]
  have hlengths : valuesOf contentLengthName ((requestFields parsed body extraHeaders).map fieldOf) =
      ((if body = [] then [] else [decimalText body.length]) ++ valuesOf contentLengthName extraHeaders).map stripBlanks := by
    rw [valuesOf_fieldOf, valuesOf_length]
  by_cases hbody : body = []
  · rw [if_pos hbody, List.nil_append] at hlengths
    rcases h.zero_length hbody with hnone | ⟨value, hvalue, hdigits, hzero⟩
    · rw [hnone] at hlengths
      rw [hbody] at hcodings hlengths ⊢
      exact .none hcodings hlengths
    · rw [hvalue] at hlengths
      refine .length hcodings hlengths hdigits ?_
      rw [hzero, hbody]
      rfl
  · rw [if_neg hbody, h.no_length hbody, List.append_nil, List.map_singleton,
      (fieldValue_of_isAuthorityChar decimalText_chars).2] at hlengths
    exact .length hcodings hlengths (decimalText_digits _) decimalValue_decimalText

theorem read_of_expressible (hscheme : IsHttpScheme parsed.scheme) (h : Expressible method parsed body extraHeaders) :
    ReadAsIntended method parsed body extraHeaders proxyAbsolute := by
  refine ⟨shownAuthority parsed, denotes_shownAuthority h, IsRequest.readsAs ?_⟩
  have hlines : List.Forall₂ FieldLine ((requestFields parsed body extraHeaders).map headerText)
      ((requestFields parsed body extraHeaders).map fieldOf) := by
    rw [List.forall₂_map_left_iff, List.forall₂_map_right_iff, List.forall₂_same]
    exact fun header hheader => fieldLine_headerText (ownFields_legal h header hheader).1 (ownFields_legal h header hheader).2
  have hhost := hostPort_shownAuthority h
  have hhosts : valuesOf hostName ((requestFields parsed body extraHeaders).map fieldOf) = [parsed.host ++ portSuffix parsed] := by
    rw [valuesOf_fieldOf, valuesOf_host, h.no_host, List.map_singleton, (fieldValue_of_isAuthorityChar hhost.chars).2]
  rw [build_eq]
  exact .intro (requestLine_shown hscheme h) hlines hhosts hhost (framed_shown h)

end Expressed

/-! ## Requests that are accepted -/

theorem splitPath_head (rest : Bytes) : ∃ path, (splitPath rest).2 = slash :: path := by
  rw [splitPath]
  split
  · exact ⟨_, rfl⟩
  · exact ⟨[], rfl⟩

/-- The parser finds a path in every URL. -/
theorem parseUrl_path (url : Bytes) : (parseUrl url).path ≠ [] := by
  obtain ⟨path, hpath⟩ := splitPath_head (splitScheme url).2
  have hquery : (splitQuery (slash :: path)).1 ≠ [] := by
    rw [splitQuery]
    rcases Scanning.splitFirst_cases question (slash :: path) with ⟨before, after, htext, -, hsplit⟩ | ⟨-, hsplit⟩
    · rw [hsplit]
      cases before with
      | nil => cases htext
      | cons c before => exact List.cons_ne_nil c before
    · rw [hsplit]
      exact List.cons_ne_nil slash path
  rw [← hpath] at hquery
  exact hquery

theorem isHttpScheme_of_accepted {method : Bytes} {parsed : ParsedUrl} {extraHeaders : Headers}
    (h : Accepted method parsed (decide (parsed.scheme = https)) extraHeaders) : IsHttpScheme parsed.scheme :=
  h.scheme.elim (fun hhttps => .inr (of_decide_eq_true hhttps)) .inl

/-- A request that is accepted is read as it was meant just if each of its parts can be expressed. -/
theorem request_read_iff (settings : HttpSettings) (method url body : Bytes) (extraHeaders : Headers) (proxyAbsolute : Bool)
    (haccepted : validateHttpRequest settings method (parseUrl url) (decide ((parseUrl url).scheme = https)) extraHeaders = none) :
    ReadAsIntended method (parseUrl url) body extraHeaders proxyAbsolute ↔
      Expressible method (parseUrl url) body extraHeaders := by
  have h := accepted_of_validate haccepted
  have hscheme := isHttpScheme_of_accepted h
  exact ⟨expressible_of_read h hscheme (parseUrl_path url), read_of_expressible hscheme⟩

/-- `GET` and `POST`. -/
def getMethod : Bytes := [71, 69, 84]
def postMethod : Bytes := [80, 79, 83, 84]

/-- `http://h/a?b` -/
def plainUrl : Bytes := [104, 116, 116, 112, 58, 47, 47, 104, 47, 97, 63, 98]

/-- `Accept: *` -/
def acceptHeader : Bytes × Bytes := ([65, 99, 99, 101, 112, 116], [42])

/-- `Content-Length: 0` -/
def noLength : Bytes × Bytes := (contentLengthField, [48])

/-- A request line, and a line break. -/
def smuggled : Bytes := [71, 69, 84, 32, 47, 97, 32, 72, 84, 84, 80, 47, 49, 46, 49] ++ lineEnd

def defaultSettings : HttpSettings where
  hasTls := true
  maxHostnameLength := 253

theorem request_read_iff_plain :
    ReadAsIntended getMethod (parseUrl plainUrl) [] [acceptHeader] false := by
  refine (request_read_iff defaultSettings getMethod plainUrl [] [acceptHeader] false rfl).mpr ?_
  have htoken : ∀ {name : Bytes}, name ≠ [] → name.all isTchar = true → Token name :=
    fun hne hname => ⟨hne, List.all_eq_true.mp hname⟩
  exact {
    method_token := htoken (by decide) (by decide)
    method_target := by decide
    host := .name (.char rfl .nil)
    port := fun hdefault => absurd rfl hdefault
    path := ⟨rfl, .char rfl (.char rfl .nil)⟩
    query := .char rfl .nil
    names := List.forall_mem_singleton.mpr (htoken (by decide) (by decide))
    values := List.forall_mem_singleton.mpr (List.all_eq_true.mp (by decide))
    no_host := rfl
    no_coding := rfl
    no_length := fun _ => rfl
    zero_length := fun _ => .inl rfl }

/-- The caller's content length ends the request before the body, which is left to be read as another one. -/
theorem body_outside_request :
    validateHttpRequest defaultSettings postMethod (parseUrl plainUrl) false [noLength] = none ∧
      ¬ ReadAsIntended postMethod (parseUrl plainUrl) smuggled [noLength] false := by
  have hvalid : validateHttpRequest defaultSettings postMethod (parseUrl plainUrl) false [noLength] = none := rfl
  refine ⟨hvalid, fun h => ?_⟩
  have hexpressible := expressible_of_read (accepted_of_validate hvalid) (.inl rfl) (parseUrl_path plainUrl) h
  exact List.cons_ne_nil _ _ (hexpressible.no_length (by decide))

end Luma.HttpRequest
