-- SUMMARY: The stored texts follow the edits of the client, over every run of notifications.
import Luma.LanguageServer.DocumentSync
import Luma.LanguageServer.PositionOffsets

/-! # Runs of Notifications

Notifications that describe edits leave the text with the edits applied. Over
notifications of any kind, the line starts of every document stay those of its text. -/

namespace Luma.LanguageServer

open Codec Luma.Protocol Stateful Utf8

/-! ## Documents -/

section Documents

variable {documents : Documents} {uri other : Bytes} {doc : DocumentState}

@[simp] theorem Documents.put_self : documents.put uri doc uri = some doc := if_pos rfl

theorem Documents.put_of_ne (h : other ≠ uri) : documents.put uri doc other = documents other := if_neg h

@[simp] theorem Documents.contains_put : (documents.put uri doc).contains uri = true := by
  rw [Documents.contains, Documents.put_self]
  rfl

theorem Documents.entry_eq (h : documents uri = some doc) : documents.entry uri = doc := by
  rw [Documents.entry, h]
  rfl

/-- The line starts of every document are those of its text. -/
def Indexed (documents : Documents) : Prop :=
  ∀ uri doc, documents uri = some doc → doc.lineStarts = lineStartsOf doc.content

/-- The same, but for the document at `uri`. -/
def IndexedBut (uri : Bytes) (documents : Documents) : Prop :=
  ∀ other doc, other ≠ uri → documents other = some doc → doc.lineStarts = lineStartsOf doc.content

theorem Indexed.but (h : Indexed documents) : IndexedBut uri documents := fun other doc _ => h other doc

theorem IndexedBut.put (h : IndexedBut uri documents) : IndexedBut uri (documents.put uri doc) := by
  intro other state hne hstate
  rw [Documents.put_of_ne hne] at hstate
  exact h other state hne hstate

theorem IndexedBut.put_indexed (h : IndexedBut uri documents) (hdoc : doc.lineStarts = lineStartsOf doc.content) :
    Indexed (documents.put uri doc) := by
  intro other state hstate
  by_cases heq : other = uri
  · rw [heq, Documents.put_self] at hstate
    obtain rfl := Option.some.inj hstate
    exact hdoc
  · rw [Documents.put_of_ne heq] at hstate
    exact h other state heq hstate

/-- The stored hash of a document is the hash of its text. -/
def Hashed (hash : Bytes → UInt64) (documents : Documents) (uri : Bytes) : Prop :=
  ∀ doc, documents uri = some doc → doc.storedHash = hash doc.content

/-- The document at `uri` has the given text, and the line starts of it. -/
def Tracks (documents : Documents) (uri : Bytes) (text : List Char) : Prop :=
  ∃ doc, documents uri = some doc ∧ doc.content = encode text ∧ doc.lineStarts = lineStartsOf (encode text)

end Documents

/-! ## Notifications of edits -/

/-- A change describes an edit. Positions are those that the handler reads. -/
def Describes (change : JsonValue) : Edit → Prop
  | .full text => change.has "range" = false ∧ changeText change = .ok (encode text)
  | .ranged start stop text =>
    change.has "range" = true ∧ changeText change = .ok (encode text) ∧
      ∃ range, change.index "range" = .ok range ∧
        rangeField range "start" "line" = .ok start.line ∧
        rangeField range "start" "character" = .ok start.character ∧
        rangeField range "end" "line" = .ok stop.line ∧
        rangeField range "end" "character" = .ok stop.character

/-- A notification carries a list of changes for the document at `uri`. -/
def Carries (params : JsonValue) (uri : Bytes) (changes : List JsonValue) : Prop :=
  params.get "contentChanges" = .array changes ∧
    ∃ uriOpt, (params.get "textDocument").tryExtractString "uri" = some uriOpt ∧ canonicalizeUri uriOpt = uri

/-- A notification carries the changes that describe a list of edits. -/
def Notifies (params : JsonValue) (uri : Bytes) (edits : List Edit) : Prop :=
  ∃ changes, Carries params uri changes ∧ List.Forall₂ Describes changes edits

section Edits

variable {s : Server} {uri : Bytes} {doc : DocumentState} {text : List Char} {change : JsonValue} {edit : Edit}

theorem applyFullSync_run {new : List Char} (htext : changeText change = .ok (encode new)) :
    (applyFullSync uri change).runFrom s =
      (.ok ⟨⟩, { s with documents := s.documents.put uri { s.documents.entry uri with content := encode new } }) := by
  rw [applyFullSync, htext, runFrom_bind, runFrom_lift]
  rfl

theorem encode_take_drop {start stop : Nat} {new : List Char} :
    (encode text).take (encode (text.take start)).length ++ encode new ++
        (encode text).drop (encode (text.take stop)).length =
      encode (text.take start ++ new ++ text.drop stop) := by
  have hsplit (k : Nat) : encode text = encode (text.take k) ++ encode (text.drop k) := by
    rw [← encode_append, List.take_append_drop]
  rw [encode_append, encode_append]
  congr 1
  · rw [hsplit start, List.take_left]
  · rw [hsplit stop, List.drop_left]

/-- The offsets of a range are in order, so that the text between them is replaced. -/
theorem applyIncrementalChange_run {start stop : Position} {new : List Char}
    (hdoc : s.documents uri = some doc) (hcontent : doc.content = encode text)
    (hstarts : doc.lineStarts = lineStartsOf (encode text))
    (hchange : Describes change (.ranged start stop new)) (horder : start.le stop) :
    (applyIncrementalChange uri change).runFrom s =
      (.ok ⟨⟩, { s with documents := s.documents.put uri { s.documents.entry uri with
        content := encode (applyEdit storeLineEnds text (.ranged start stop new)) } }) := by
  obtain ⟨-, htext, range, hrange, hsl, hsc, hel, hec⟩ := hchange
  have hstart : positionToOffset s.documents uri (encode text) start.line start.character =
      (encode (text.take (offsetOf storeLineEnds text start))).length :=
    positionToOffset_encode hdoc hstarts (Int.natCast_nonneg _)
  have hstop : positionToOffset s.documents uri (encode text) stop.line stop.character =
      (encode (text.take (offsetOf storeLineEnds text stop))).length :=
    positionToOffset_encode hdoc hstarts (Int.natCast_nonneg _)
  have hmono : offsetOf storeLineEnds text start ≤ offsetOf storeLineEnds text stop := offsetOf_mono horder
  have hbytes : (encode (text.take (offsetOf storeLineEnds text start))).length ≤
      (encode (text.take (offsetOf storeLineEnds text stop))).length := by
    obtain ⟨rest, hrest⟩ := List.take_prefix_take_left hmono (l := text)
    rw [← hrest, encode_append, List.length_append]
    exact Nat.le_add_right _ _
  simp only [applyIncrementalChange, hrange, hsl, hsc, hel, hec, runFrom_bind, runFrom_lift, runFrom_map, runFrom_get,
    Documents.entry_eq hdoc, hcontent, hstart, hstop, ge_iff_le, if_pos hbytes, htext]
  rw [writeContent, modifyDocuments, runFrom_modify, Documents.entry_eq hdoc, encode_take_drop]
  rfl

theorem applyChange_run (hdoc : s.documents uri = some doc) (hcontent : doc.content = encode text)
    (hstarts : doc.lineStarts = lineStartsOf (encode text)) (hchange : Describes change edit) (horder : edit.Ordered) :
    (applyChange uri change).runFrom s =
      (.ok ⟨⟩, { s with documents := s.documents.put uri { s.documents.entry uri with
        content := encode (applyEdit storeLineEnds text edit) } }) := by
  cases edit with
  | full new =>
    rw [applyChange, hchange.1, if_neg Bool.false_ne_true]
    exact applyFullSync_run hchange.2
  | ranged start stop new =>
    rw [applyChange, if_pos hchange.1]
    exact applyIncrementalChange_run hdoc hcontent hstarts hchange horder

/-- The loop applies the edits one after the other. -/
theorem applyChanges_run {changes : List JsonValue} {edits : List Edit} (htracks : Tracks s.documents uri text)
    (hchanges : List.Forall₂ Describes changes edits) (horder : ∀ edit ∈ edits, edit.Ordered) :
    ∃ s', (applyChanges uri changes).runFrom s = (.ok ⟨⟩, s') ∧
      Tracks s'.documents uri (applyEdits storeLineEnds text edits) := by
  induction hchanges generalizing s text with
  | nil => exact ⟨s, rfl, htracks⟩
  | cons hchange hrest ih =>
    obtain ⟨doc, hdoc, hcontent, hstarts⟩ := htracks
    rw [List.forall_mem_cons] at horder
    rw [applyChanges, runFrom_bind, applyChange_run hdoc hcontent hstarts hchange horder.1]
    dsimp only
    rw [modifyDocuments, runFrom_bind, runFrom_modify]
    dsimp only
    refine ih ?_ horder.2
    rw [rebuildLineStarts, Documents.entry_eq Documents.put_self]
    exact ⟨_, Documents.put_self, rfl, rfl⟩

/-- The version of a document is not part of what is synchronised. -/
theorem setClientVersion_run (htracks : Tracks s.documents uri text) (td : JsonValue) :
    ∃ s', (setClientVersion uri td).runFrom s = (.ok ⟨⟩, s') ∧ Tracks s'.documents uri text := by
  rw [setClientVersion]
  cases td.tryExtractInt "version" with
  | none => exact ⟨s, rfl, htracks⟩
  | some version =>
    obtain ⟨doc, hdoc, hcontent, hstarts⟩ := htracks
    refine ⟨_, rfl, { doc with version := version }, ?_, hcontent, hstarts⟩
    change setVersion s.documents uri version uri = _
    rw [setVersion, Documents.put_self, Documents.entry_eq hdoc]

theorem isNull_of_tryExtractString {td : JsonValue} {key : String} {value : Bytes}
    (h : td.tryExtractString key = some value) : td.isNull = false := by
  cases td with
  | null => cases h
  | _ => rfl

theorem handleDidChange_of_carries {hash : Bytes → UInt64} {params : JsonValue} {changes : List JsonValue}
    (h : Carries params uri changes) :
    handleDidChange hash params = changeDocument hash uri (params.get "textDocument") changes := by
  obtain ⟨hchanges, uriOpt, huri, rfl⟩ := h
  simp only [handleDidChange, hchanges, isNull_of_tryExtractString huri, JsonValue.isArray, Bool.not_true,
    Bool.or_self, Bool.false_eq_true, if_false, huri]
  rfl

/-- A notification of edits leaves the text with the edits applied, with its line starts
    and its hash. -/
theorem handleDidChange_run (hash : Bytes → UInt64) {params : JsonValue} {edits : List Edit}
    (htracks : Tracks s.documents uri text) (hparams : Notifies params uri edits)
    (horder : ∀ edit ∈ edits, edit.Ordered) :
    ∃ s', (handleDidChange hash params).runFrom s = (.ok ⟨⟩, s') ∧
      Tracks s'.documents uri (applyEdits storeLineEnds text edits) ∧ Hashed hash s'.documents uri := by
  obtain ⟨changes, hcarries, hdescribes⟩ := hparams
  obtain ⟨s₁, hversion, htracks₁⟩ := setClientVersion_run htracks (params.get "textDocument")
  obtain ⟨s₂, hrun, doc, hdoc, hcontent, hstarts⟩ := applyChanges_run htracks₁ hdescribes horder
  have hcontains : s.documents.contains uri = true := by
    obtain ⟨doc, hdoc, -⟩ := htracks
    rw [Documents.contains, hdoc]
    rfl
  have hrefresh : refreshStoredHash hash s₂.documents uri =
      s₂.documents.put uri { doc with storedHash := hash doc.content } := by
    rw [refreshStoredHash, hdoc]
  refine ⟨{
      documents := refreshStoredHash hash s₂.documents uri
      logged := s₂.logged
      invalidated := s₂.invalidated ++ [uri]
      scheduled := s₂.scheduled ++ [(uri, false)] }, ?_, ?_⟩
  · rw [handleDidChange_of_carries hcarries]
    simp only [changeDocument, runFrom_bind, runFrom_map, runFrom_get, hcontains, if_true, hversion, hrun,
      modifyDocuments, invalidate, scheduleAnalysis, runFrom_modify]
  · rw [hrefresh]
    refine ⟨⟨_, Documents.put_self, hcontent, hstarts⟩, ?_⟩
    intro doc' hdoc'
    dsimp only at hdoc'
    rw [Documents.put_self] at hdoc'
    obtain rfl := Option.some.inj hdoc'
    rfl

end Edits

/-! ## Notifications of any kind -/

section Any

variable {uri other : Bytes} {change params : JsonValue} {changes : List JsonValue} {hash : Bytes → UInt64}
  {P Q : Documents → Prop}

/-- A triple about the documents alone. -/
abbrev Keeps (P : Documents → Prop) (m : Stateful Server String Unit) (Q : Documents → Prop) : Prop :=
  Triple (fun s => P s.documents) m (fun _ s => Q s.documents) (fun _ s => P s.documents)

theorem modifyDocuments_keeps {f : Documents → Documents} (hf : ∀ documents, P documents → Q (f documents)) :
    Keeps P (modifyDocuments f) Q :=
  Triple.modify.weaken_pre fun _ hs => hf _ hs

theorem get_documents_keeps {E : String → Server → Prop} :
    Triple (fun s => P s.documents) (Server.documents <$> get)
      (fun documents s => documents = s.documents ∧ P s.documents) E :=
  Triple.map (Triple.get.weaken_pre fun _ hs => ⟨rfl, hs⟩)

/-- A change that does not read as one is not applied. -/
theorem applyIncrementalChange_keeps (hput : ∀ documents doc, P documents → Q (documents.put uri doc))
    (hskip : ∀ documents, P documents → Q documents) : Keeps P (applyIncrementalChange uri change) Q := by
  rw [applyIncrementalChange]
  refine Triple.lift.bind fun range => ?_
  refine Triple.lift.bind fun startLine => ?_
  refine Triple.lift.bind fun startChar => ?_
  refine Triple.lift.bind fun endLine => ?_
  refine Triple.lift.bind fun endChar => ?_
  refine get_documents_keeps.bind fun documents => ?_
  apply Triple.ite
  · intro _
    refine Triple.bind (Triple.lift.weaken_pre fun _ hs => hs.2) fun text => ?_
    exact modifyDocuments_keeps fun documents => hput documents _
  · intro _
    exact Triple.pure.weaken_pre fun s hs => hskip s.documents hs.2

theorem applyChange_keeps (hput : ∀ documents doc, P documents → Q (documents.put uri doc))
    (hskip : ∀ documents, P documents → Q documents) : Keeps P (applyChange uri change) Q := by
  rw [applyChange]
  apply Triple.ite
  · intro _
    exact applyIncrementalChange_keeps hput hskip
  · intro _
    exact Triple.lift.bind fun text => modifyDocuments_keeps fun documents => hput documents _

/-- What rebuilding the line starts restores holds after every change. -/
theorem applyChanges_keeps (hput : ∀ documents doc, P documents → Q (documents.put uri doc))
    (hskip : ∀ documents, P documents → Q documents)
    (hrebuild : ∀ documents, Q documents →
      P (rebuildLineStarts documents uri (documents.entry uri).content)) : Keeps P (applyChanges uri changes) P := by
  induction changes with
  | nil => exact fun _ hs => hs
  | cons change changes ih =>
    rw [applyChanges]
    refine (applyChange_keeps hput hskip).bind fun _ => ?_
    exact Triple.bind (Triple.modify.weaken_pre fun s => hrebuild s.documents) fun _ => ih

theorem setClientVersion_keeps {td : JsonValue}
    (hversion : ∀ documents version, P documents → P (setVersion documents uri version)) :
    Keeps P (setClientVersion uri td) P := by
  rw [setClientVersion]
  cases td.tryExtractInt "version" with
  | none => exact fun _ hs => hs
  | some version => exact modifyDocuments_keeps fun documents => hversion documents version

theorem invalidate_keeps : Keeps P (invalidate uri) P := Triple.modify.weaken_pre fun _ hs => hs

theorem scheduleAnalysis_keeps {immediate : Bool} : Keeps P (scheduleAnalysis uri immediate) P :=
  Triple.modify.weaken_pre fun _ hs => hs

theorem logMessage_keeps {message : String} : Keeps P (logMessage message) P :=
  Triple.modify.weaken_pre fun _ hs => hs

/-- Without changes for a document, the handler changes no document. -/
theorem handleDidChange_keeps
    (hchanges : ∀ uri changes, Carries params uri changes →
      Keeps P (changeDocument hash uri (params.get "textDocument") changes) P) :
    Keeps P (handleDidChange hash params) P := by
  rw [handleDidChange]
  apply Triple.ite
  · intro _
    exact logMessage_keeps
  · intro hform
    cases huri : (params.get "textDocument").tryExtractString "uri" with
    | none => exact logMessage_keeps
    | some uriOpt =>
      cases helements : params.get "contentChanges" with
      | array elements => exact hchanges _ _ ⟨helements, uriOpt, huri, rfl⟩
      | _ => simp [helements, JsonValue.isArray] at hform

/-- A document that is not there gets no version: the line starts of every document stay
    those of its text, also when the handler ends with an exception. -/
theorem changeDocument_indexed {td : JsonValue} : Keeps Indexed (changeDocument hash uri td changes) Indexed := by
  have hput : ∀ documents doc, Indexed documents ∧ documents.contains uri = true →
      IndexedBut uri (documents.put uri doc) ∧ (documents.put uri doc).contains uri = true :=
    fun documents doc h => ⟨h.1.but.put, Documents.contains_put⟩
  have hrebuild : ∀ documents, IndexedBut uri documents ∧ documents.contains uri = true →
      Indexed (rebuildLineStarts documents uri (documents.entry uri).content) ∧
        (rebuildLineStarts documents uri (documents.entry uri).content).contains uri = true :=
    fun documents h => ⟨h.1.put_indexed rfl, Documents.contains_put⟩
  have hversion : ∀ documents version, Indexed documents ∧ documents.contains uri = true →
      Indexed (setVersion documents uri version) ∧ (setVersion documents uri version).contains uri = true := by
    intro documents version ⟨hindexed, hcontains⟩
    obtain ⟨doc, hdoc⟩ := Option.isSome_iff_exists.1 hcontains
    refine ⟨hindexed.but.put_indexed ?_, Documents.contains_put⟩
    rw [Documents.entry_eq hdoc]
    exact hindexed uri doc hdoc
  have hrefresh : ∀ documents, Indexed documents → Indexed (refreshStoredHash hash documents uri) := by
    intro documents hindexed
    rw [refreshStoredHash]
    cases hdoc : documents uri with
    | none => exact hindexed
    | some doc => exact hindexed.but.put_indexed (hindexed uri doc hdoc)
  rw [changeDocument]
  refine get_documents_keeps.bind fun documents => ?_
  apply Triple.ite
  · intro hcontains
    have hset : Keeps (fun documents => Indexed documents ∧ documents.contains uri = true)
        (setClientVersion uri td) (fun documents => Indexed documents ∧ documents.contains uri = true) :=
      setClientVersion_keeps hversion
    have hloop : Keeps (fun documents => Indexed documents ∧ documents.contains uri = true)
        (applyChanges uri changes) (fun documents => Indexed documents ∧ documents.contains uri = true) :=
      applyChanges_keeps hput (fun documents h => ⟨h.1.but, h.2⟩) hrebuild
    refine Triple.bind (hset.conseq (fun s hs => ⟨hs.2, hs.1 ▸ hcontains⟩) (fun _ _ h => h) fun _ _ h => h.1)
      fun _ => ?_
    refine Triple.bind (hloop.conseq (fun _ h => h) (fun _ _ h => h.1) fun _ _ h => h.1) fun _ => ?_
    refine (modifyDocuments_keeps hrefresh).bind fun _ => ?_
    exact invalidate_keeps.bind fun _ => scheduleAnalysis_keeps
  · intro _
    exact Triple.pure.weaken_pre fun s hs => hs.2

/-- The documents that a notification does not name stay as they are. -/
theorem changeDocument_frame {td : JsonValue} {state : Option DocumentState} (hne : other ≠ uri) :
    Keeps (fun documents => documents other = state) (changeDocument hash uri td changes)
      (fun documents => documents other = state) := by
  have hput (documents : Documents) (doc : DocumentState) (h : documents other = state) :
      (documents.put uri doc) other = state := (Documents.put_of_ne hne).trans h
  have hrefresh : ∀ documents : Documents, documents other = state → refreshStoredHash hash documents uri other = state := by
    intro documents h
    rw [refreshStoredHash]
    cases documents uri with
    | none => exact h
    | some doc => exact hput documents _ h
  rw [changeDocument]
  refine (get_documents_keeps (P := fun documents => documents other = state)).bind fun documents => ?_
  apply Triple.ite
  · intro _
    refine Triple.bind ((setClientVersion_keeps fun documents version => hput documents _).weaken_pre
      fun _ hs => hs.2) fun _ => ?_
    refine (applyChanges_keeps hput (fun _ h => h) fun documents => hput documents _).bind fun _ => ?_
    refine Triple.bind (modifyDocuments_keeps (Q := fun documents => documents other = state) hrefresh) fun _ => ?_
    exact Triple.bind (invalidate_keeps (P := fun documents => documents other = state)) fun _ =>
      scheduleAnalysis_keeps (P := fun documents => documents other = state)
  · intro _
    exact Triple.pure.weaken_pre fun s hs => hs.2

/-- When the handler comes to its end, the document has the hash of its text. -/
theorem changeDocument_hashed {td : JsonValue} :
    Triple (fun _ => True) (changeDocument hash uri td changes) (fun _ s => Hashed hash s.documents uri)
      (fun _ _ => True) := by
  have hrefresh : ∀ documents, Hashed hash (refreshStoredHash hash documents uri) uri := by
    intro documents doc hdoc
    rw [refreshStoredHash] at hdoc
    cases hold : documents uri with
    | none => simp [hold] at hdoc
    | some old =>
      simp only [hold, Documents.put_self, Option.some.injEq] at hdoc
      rw [← hdoc]
  rw [changeDocument]
  have hget : Triple (fun _ => True) (Server.documents <$> get)
      (fun documents s => documents = s.documents) (fun (_ : String) _ => True) :=
    Triple.map (Triple.get.weaken_pre fun _ _ => rfl)
  refine hget.bind fun documents => ?_
  apply Triple.ite
  · intro _
    refine Triple.top.bind fun _ => ?_
    refine Triple.top.bind fun _ => ?_
    have hmodify : Triple (fun _ => True) (modifyDocuments fun documents => refreshStoredHash hash documents uri)
        (fun _ s => Hashed hash s.documents uri) (fun _ _ => True) :=
      Triple.modify.weaken_pre fun s _ => hrefresh s.documents
    refine hmodify.bind fun _ => ?_
    have hcalls : Keeps (fun documents => Hashed hash documents uri)
        (invalidate uri >>= fun _ => scheduleAnalysis uri false) (fun documents => Hashed hash documents uri) :=
      Triple.bind (invalidate_keeps (P := fun documents => Hashed hash documents uri)) fun _ =>
        scheduleAnalysis_keeps (P := fun documents => Hashed hash documents uri)
    exact hcalls.conseq (fun _ h => h) (fun _ _ h => h) fun _ _ _ => trivial
  · intro hcontains
    refine Triple.pure.weaken_pre fun s hs => ?_
    rintro doc hdoc
    rw [hs, Documents.contains, hdoc] at hcontains
    exact absurd rfl hcontains

theorem handleDidChange_indexed : Keeps Indexed (handleDidChange hash params) Indexed :=
  handleDidChange_keeps fun _ _ _ => changeDocument_indexed

theorem handleDidChange_frame (hash : Bytes → UInt64) {state : Option DocumentState} (h : ∀ changes, ¬ Carries params other changes) :
    Keeps (fun documents => documents other = state) (handleDidChange hash params)
      (fun documents => documents other = state) := by
  refine handleDidChange_keeps fun uri changes hcarries => ?_
  exact changeDocument_frame fun heq => h changes (heq ▸ hcarries)

theorem handleDidChange_hashed (hash : Bytes → UInt64) (h : Carries params uri changes) :
    Triple (fun _ => True) (handleDidChange hash params) (fun _ s => Hashed hash s.documents uri)
      (fun _ _ => True) := by
  rw [handleDidChange_of_carries h]
  exact changeDocument_hashed

/-- What the handler keeps holds of its final state, whatever it ends with. -/
theorem Keeps.final (h : Keeps P (handleDidChange hash params) P) (s : Server) (hs : P s.documents) :
    P ((handleDidChange hash params).runFrom s).2.documents := by
  have hend := h s hs
  cases hrun : (handleDidChange hash params).runFrom s with
  | mk r s' =>
    rw [hrun] at hend
    cases r with
    | ok a => exact hend
    | error e => exact hend

end Any

/-! ## Runs -/

section Runs

variable {hash : Bytes → UInt64} {s : Server} {uri : Bytes} {text : List Char}

/-- A document that is opened has its text, line starts and hash. -/
theorem setContent_tracks (hash : Bytes → UInt64) (documents : Documents) (uri : Bytes) (text : List Char)
    (hnew : documents uri = none) :
    Tracks (setContent hash documents uri (encode text)) uri text ∧
      Hashed hash (setContent hash documents uri (encode text)) uri := by
  simp only [setContent, hnew, rebuildLineStarts, Documents.entry_eq Documents.put_self]
  refine ⟨⟨_, Documents.put_self, rfl, rfl⟩, ?_⟩
  intro doc hdoc
  rw [Documents.put_self] at hdoc
  obtain rfl := Option.some.inj hdoc
  rfl

theorem setContent_indexed {documents : Documents} {new : Bytes} (h : Indexed documents) :
    Indexed (setContent hash documents uri new) := by
  rw [setContent]
  cases hdoc : documents uri with
  | none =>
    dsimp only
    rw [rebuildLineStarts, Documents.entry_eq Documents.put_self]
    exact h.but.put.put_indexed rfl
  | some doc =>
    dsimp only
    split
    · exact h.but.put_indexed (h uri doc hdoc)
    · rw [rebuildLineStarts, Documents.entry_eq Documents.put_self]
      exact h.but.put.put_indexed rfl

theorem handleAll_indexed {notifications : List JsonValue} (h : Indexed s.documents) :
    Indexed (handleAll hash notifications s).documents := by
  induction notifications generalizing s with
  | nil => exact h
  | cons params notifications ih => exact ih (handleDidChange_indexed.final s h)

theorem handleAll_tracks {notifications : List JsonValue} {batches : List (List Edit)}
    (htracks : Tracks s.documents uri text) (hhashed : Hashed hash s.documents uri)
    (hnotifies : List.Forall₂ (fun params edits => Notifies params uri edits ∧ ∀ edit ∈ edits, edit.Ordered)
      notifications batches) :
    Tracks (handleAll hash notifications s).documents uri (batches.foldl (applyEdits storeLineEnds) text) ∧
      Hashed hash (handleAll hash notifications s).documents uri := by
  induction hnotifies generalizing s text with
  | nil => exact ⟨htracks, hhashed⟩
  | @cons params edits notifications batches hnotifies hrest ih =>
    obtain ⟨s', hrun, htracks', hhashed'⟩ := handleDidChange_run hash htracks hnotifies.1 hnotifies.2
    rw [handleAll, List.foldl_cons, hrun]
    exact ih htracks' hhashed'

/-- The stored texts follow the edits of the client, with lines ended by a line feed, by a
    carriage return before it, or by a carriage return at the end of the text. After every
    run of notifications, well formed or not, the line starts are those of the texts; and
    a notification whose changes are all processed leaves the hash of the text. -/
theorem documents_follow_edits {notifications : List JsonValue} {batches : List (List Edit)}
    (htracks : Tracks s.documents uri text) (hhashed : Hashed hash s.documents uri)
    (hnotifies : List.Forall₂ (fun params edits => Notifies params uri edits ∧ ∀ edit ∈ edits, edit.Ordered)
      notifications batches)
    {before : Server} (hindexed : Indexed before.documents) (received : List JsonValue) :
    (Tracks (handleAll hash notifications s).documents uri (batches.foldl (applyEdits storeLineEnds) text) ∧
      Hashed hash (handleAll hash notifications s).documents uri) ∧
    Indexed (handleAll hash received before).documents ∧
    (∀ params s', (handleDidChange hash params).runFrom (handleAll hash received before) = (.ok ⟨⟩, s') →
      ∀ other, (∃ changes, Carries params other changes) ∨
          Hashed hash (handleAll hash received before).documents other →
        Hashed hash s'.documents other) := by
  refine ⟨handleAll_tracks htracks hhashed hnotifies, handleAll_indexed hindexed, ?_⟩
  intro params s' hrun other hother
  by_cases hcarries : ∃ changes, Carries params other changes
  · obtain ⟨changes, hcarries⟩ := hcarries
    have hend := handleDidChange_hashed hash hcarries (handleAll hash received before) trivial
    rw [hrun] at hend
    exact hend
  · have hend := (handleDidChange_frame hash (not_exists.1 hcarries)).final (handleAll hash received before) rfl
    rw [hrun] at hend
    intro doc hdoc
    exact hother.resolve_left hcarries doc (hend ▸ hdoc)

/-- An `x` at the start of the second line, in a notification. -/
def insertion : JsonValue :=
  .object [("textDocument", .object [("uri", .string [])]),
    ("contentChanges", .array [
      .object [
        ("range", .object [
          ("start", .object [("line", .integer 1), ("character", .integer 0)]),
          ("end", .object [("line", .integer 1), ("character", .integer 0)])]),
        ("text", .string [120])]])]

theorem insertion_notifies : Notifies insertion [] [.ranged ⟨1, 0⟩ ⟨1, 0⟩ ['x']] := by
  refine ⟨_, ⟨rfl, [], rfl, by decide⟩, List.Forall₂.cons ⟨rfl, rfl, _, rfl, ?_⟩ List.Forall₂.nil⟩
  exact ⟨rfl, rfl, rfl, rfl⟩

theorem insertion_ordered : ∀ edit ∈ [Edit.ranged ⟨1, 0⟩ ⟨1, 0⟩ ['x']], edit.Ordered := by
  rintro edit hmem
  obtain rfl := List.mem_singleton.1 hmem
  exact Or.inr ⟨rfl, le_refl _⟩

/-- A server with one document, just opened. -/
def opened (text : List Char) : Server where
  documents := setContent (fun _ => 0) (fun _ => none) [] (encode text)
  logged := []
  invalidated := []
  scheduled := []

theorem opened_tracks (text : List Char) :
    Tracks (opened text).documents [] text ∧ Hashed (fun _ => 0) (opened text).documents [] :=
  setContent_tracks (fun _ => 0) (fun _ => none) [] text rfl

theorem opened_indexed (text : List Char) : Indexed (opened text).documents := by
  have hnone : Indexed fun _ => none := by
    intro uri doc hdoc
    cases hdoc
  change Indexed (setContent (fun _ => 0) (fun _ => none) [] (encode text))
  exact setContent_indexed hnone

theorem documents_follow_edits_insertion :
    Tracks (handleAll (fun _ => 0) [insertion] (opened ['a', '\n', 'b'])).documents [] ['a', '\n', 'x', 'b'] ∧
      Indexed (handleAll (fun _ => 0) [.null, insertion] (opened ['a'])).documents := by
  have hrun := documents_follow_edits (opened_tracks ['a', '\n', 'b']).1 (opened_tracks ['a', '\n', 'b']).2
    (List.Forall₂.cons ⟨insertion_notifies, insertion_ordered⟩ List.Forall₂.nil)
    (opened_indexed ['a']) [.null, insertion]
  exact ⟨hrun.1.1, hrun.2.1⟩

/-- A carriage return in the middle of a line ends no line for the store. -/
theorem lone_return_ends_no_line :
    ¬ ∀ (hash : Bytes → UInt64) (s : Server) (uri : Bytes) (text : List Char) (params : JsonValue) (edits : List Edit),
      Tracks s.documents uri text → Notifies params uri edits → (∀ edit ∈ edits, edit.Ordered) →
      Tracks (handleAll hash [params] s).documents uri (applyEdits protocolLineEnds text edits) := by
  intro hclaim
  have hopen : Tracks (opened ['a', '\r', 'b']).documents [] ['a', '\r', 'b'] := (opened_tracks _).1
  obtain ⟨doc, hdoc, hcontent, -⟩ := hclaim (fun _ => 0) _ _ _ _ _ hopen insertion_notifies insertion_ordered
  obtain ⟨s', hrun, ⟨doc', hdoc', hcontent', -⟩, -⟩ :=
    handleDidChange_run (fun _ => 0) hopen insertion_notifies insertion_ordered
  have hstate : handleAll (fun _ => 0) [insertion] (opened ['a', '\r', 'b']) = s' := by
    rw [handleAll, List.foldl_cons, hrun]
    rfl
  rw [hstate, hdoc'] at hdoc
  obtain rfl := Option.some.inj hdoc
  rw [hcontent'] at hcontent
  exact absurd hcontent (by decide)

end Runs

end Luma.LanguageServer
