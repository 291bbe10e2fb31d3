-- SUMMARY: The didChange handler: full and ranged changes of the documents of the language server.
import Luma.LanguageServer.Positions

/-! # Document Synchronisation

A notification carries the changes of a document. They are applied one after the other,
each to the text that the one before it has left. A notification that is not well formed
ends the handler where this is found. -/

namespace Luma.LanguageServer

open Codec Luma.Protocol

/-! ## URIs -/

/-- `"file://"`. -/
def fileUriStart : Bytes := [102, 105, 108, 101, 58, 47, 47]

/-- `"%3A"`. -/
def encodedColon : Bytes := [37, 51, 65]

def isAlpha (c : UInt8) : Bool := (65 ≤ c && c ≤ 90) || (97 ≤ c && c ≤ 122)

/-- On the URI of a Windows drive, the drive letter in lower case and a plain colon. -/
def canonicalizeUri (uri : Bytes) : Bytes :=
  let driveLetterIndex := fileUriStart.length + 1
  let colonIndex := driveLetterIndex + 1
  if uri.take fileUriStart.length != fileUriStart || uri.length ≤ colonIndex ||
      uri.getD fileUriStart.length 0 != 47 || !isAlpha (uri.getD driveLetterIndex 0) then uri
  else
    let afterDrive := uri.drop colonIndex
    let withDrive rest := uri.take driveLetterIndex ++ [toLower (uri.getD driveLetterIndex 0), 58] ++ rest
    if afterDrive.head? = some 58 then withDrive (uri.drop (colonIndex + 1))
    else if caseInsensitiveEqual (afterDrive.take encodedColon.length) encodedColon then
      withDrive (uri.drop (colonIndex + encodedColon.length))
    else uri

/-! ## The server -/

/-- What the handler reads and changes: the documents, and the calls it makes to the
    client, to the cache of semantic tokens and to the analysis. -/
structure Server where
  documents : Documents
  logged : List (String × Nat)
  invalidated : List Bytes
  scheduled : List (Bytes × Bool)

/-- `message_type::info`. -/
def messageTypeInfo : Nat := 3

def logMessage (message : String) : Stateful Server String Unit :=
  modify fun s => { s with logged := s.logged ++ [(message, messageTypeInfo)] }

def invalidate (uri : Bytes) : Stateful Server String Unit :=
  modify fun s => { s with invalidated := s.invalidated ++ [uri] }

def scheduleAnalysis (uri : Bytes) (immediate : Bool) : Stateful Server String Unit :=
  modify fun s => { s with scheduled := s.scheduled ++ [(uri, immediate)] }

def modifyDocuments (f : Documents → Documents) : Stateful Server String Unit :=
  modify fun s => { s with documents := f s.documents }

/-- Write to the text that `get_content` refers to. -/
def writeContent (uri content : Bytes) : Stateful Server String Unit :=
  modifyDocuments fun documents => documents.put uri { documents.entry uri with content := content }

/-! ## Changes -/

/-- `clamp_to_int(range[bound][field].as_integer())`. -/
def rangeField (range : JsonValue) (bound field : String) : Except String Int := do
  let position ← range.index bound
  let value ← position.index field
  return clampToInt (← value.asInteger)

/-- `change["text"].as_string()`. -/
def changeText (change : JsonValue) : Except String Bytes := do
  let text ← change.index "text"
  text.asString

def applyIncrementalChange (uri : Bytes) (change : JsonValue) : Stateful Server String Unit := do
  let range ← liftM (change.index "range")
  let startLine ← liftM (rangeField range "start" "line")
  let startChar ← liftM (rangeField range "start" "character")
  let endLine ← liftM (rangeField range "end" "line")
  let endChar ← liftM (rangeField range "end" "character")
  let documents ← Server.documents <$> get
  let doc := (documents.entry uri).content
  let startOff := positionToOffset documents uri doc startLine startChar
  let endOff := positionToOffset documents uri doc endLine endChar
  if endOff ≥ startOff then
    let text ← liftM (changeText change)
    writeContent uri (doc.take startOff ++ text ++ doc.drop endOff)

def applyFullSync (uri : Bytes) (change : JsonValue) : Stateful Server String Unit := do
  let text ← liftM (changeText change)
  writeContent uri text

def applyChange (uri : Bytes) (change : JsonValue) : Stateful Server String Unit :=
  if change.has "range" then applyIncrementalChange uri change else applyFullSync uri change

/-- The loop over the changes. The line starts are rebuilt after each of them. -/
def applyChanges (uri : Bytes) : List JsonValue → Stateful Server String Unit
  | [] => pure ()
  | change :: changes => do
    applyChange uri change
    modifyDocuments fun documents => rebuildLineStarts documents uri (documents.entry uri).content
    applyChanges uri changes

/-- The version that the client supplies, if it does. -/
def setClientVersion (uri : Bytes) (td : JsonValue) : Stateful Server String Unit :=
  match td.tryExtractInt "version" with
  | some version => modifyDocuments fun documents => setVersion documents uri version
  | none => pure ()

section Handler

variable (hash : Bytes → UInt64)

/-- The part of `handleDidChange` behind the checks of the message. -/
def changeDocument (uri : Bytes) (td : JsonValue) (changes : List JsonValue) : Stateful Server String Unit := do
  let documents ← Server.documents <$> get
  -- A document that was not opened is left alone.
  if documents.contains uri then
    setClientVersion uri td
    applyChanges uri changes
    modifyDocuments fun documents => refreshStoredHash hash documents uri
    invalidate uri
    scheduleAnalysis uri false

def handleDidChange (params : JsonValue) : Stateful Server String Unit := do
  let td := params.get "textDocument"
  let changesVal := params.get "contentChanges"
  if td.isNull || !changesVal.isArray then
    logMessage "didChange: missing textDocument or contentChanges field"
  else
    match td.tryExtractString "uri" with
    | none => logMessage "didChange: missing uri field in textDocument"
    | some uriOpt =>
      let uri := canonicalizeUri uriOpt
      let changes ← liftM changesVal.asArray
      changeDocument hash uri td changes

/-- The server after a list of notifications, whatever the handler of each ends with. -/
def handleAll (notifications : List JsonValue) (s : Server) : Server :=
  notifications.foldl (fun s params => ((handleDidChange hash params).runFrom s).2) s

end Handler

end Luma.LanguageServer
