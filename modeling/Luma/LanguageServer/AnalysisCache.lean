-- SUMMARY: The analysis cache of the language server, its symbol index and its transactions.
import Luma.Library.BigEndian
import Luma.Library.LinkedList
import Luma.Library.Serving

/-! # The Analysis Cache

Five containers that every operation updates one by one: the results, the list of the
documents by use with its index, the definition sites of each symbol name and the names each
document contributed. A transaction stages a result and include edges, and applies them
when it is committed. -/

namespace Luma.LanguageServer

open Codec OrderedMap

abbrev Uri := Bytes

/-- What the cache reads of a result: the definitions and the functions by name, with their locations. -/
structure AnalysisResult (Loc : Type) where
  definitions : List (Bytes × Loc)
  userFunctions : List (Bytes × Loc)

structure IndexEntry (Loc : Type) where
  uri : Uri
  location : Loc

/-- The cache; `lruList` holds the document used longest ago first. -/
structure LspAnalysisCache (Loc : Type) where
  maxEntries : Nat
  cache : List (Uri × AnalysisResult Loc) := []
  lruList : LinkedList Uri := .empty
  lruIndex : List (Uri × Nat) := []
  includeDependents : List (Bytes × List Uri) := []
  symbolIndex : List (Bytes × List (IndexEntry Loc)) := []
  uriSymbols : List (Uri × List Bytes) := []

variable {Loc σ : Type}

namespace LspAnalysisCache

/-! ## The reverse symbol index -/

/-- Add an entry under a name. -/
def pushEntry (name : Bytes) (entry : IndexEntry Loc) (symbolIndex : List (Bytes × List (IndexEntry Loc))) :
    List (Bytes × List (IndexEntry Loc)) :=
  insert name ((lookup name symbolIndex).getD [] ++ [entry]) symbolIndex

/-- Add an entry for each symbol of a document. -/
def indexSymbols (uri : Uri) : (symbols : List (Bytes × Loc)) → List (Bytes × List (IndexEntry Loc)) →
    List (Bytes × List (IndexEntry Loc))
  | [], symbolIndex => symbolIndex
  | (name, location) :: symbols, symbolIndex =>
    indexSymbols uri symbols (pushEntry name { uri, location } symbolIndex)

/-- Index the result of a document, and record the names it contributes. -/
def indexUri (uri : Uri) (c : LspAnalysisCache Loc) : LspAnalysisCache Loc :=
  match lookup uri c.cache with
  | none => c
  | some result =>
    let names := (lookup uri c.uriSymbols).getD [] ++ result.definitions.map Prod.fst ++ result.userFunctions.map Prod.fst
    { c with
      symbolIndex := indexSymbols uri result.userFunctions (indexSymbols uri result.definitions c.symbolIndex)
      uriSymbols := insert uri names c.uriSymbols }

/-- Drop the entries of a document under one name, and the name if none are left. -/
def unindexName (uri : Uri) (name : Bytes) (symbolIndex : List (Bytes × List (IndexEntry Loc))) :
    List (Bytes × List (IndexEntry Loc)) :=
  match lookup name symbolIndex with
  | none => symbolIndex
  | some bucket =>
    let bucket := bucket.filter fun entry => entry.uri ≠ uri
    if bucket.isEmpty then remove name symbolIndex else insert name bucket symbolIndex

/-- Drop the entries of a document under each of its names. -/
def unindexNames (uri : Uri) : (names : List Bytes) → List (Bytes × List (IndexEntry Loc)) →
    List (Bytes × List (IndexEntry Loc))
  | [], symbolIndex => symbolIndex
  | name :: names, symbolIndex => unindexNames uri names (unindexName uri name symbolIndex)

def unindexUri (uri : Uri) (c : LspAnalysisCache Loc) : LspAnalysisCache Loc :=
  match lookup uri c.uriSymbols with
  | none => c
  | some names =>
    { c with symbolIndex := unindexNames uri names c.symbolIndex, uriSymbols := remove uri c.uriSymbols }

/-! ## Documents -/

/-- Erase the node of a document from the list, and the document from its index. -/
def unlink (uri : Uri) (c : LspAnalysisCache Loc) : LspAnalysisCache Loc :=
  match lookup uri c.lruIndex with
  | none => c
  | some node => { c with lruList := c.lruList.erase node, lruIndex := remove uri c.lruIndex }

/-- Make a document the one used last. -/
def touch (uri : Uri) (c : LspAnalysisCache Loc) : LspAnalysisCache Loc :=
  let c := c.unlink uri
  { c with lruList := c.lruList.pushBack uri, lruIndex := insert uri c.lruList.fresh c.lruIndex }

def insertResult (uri : Uri) (result : AnalysisResult Loc) (c : LspAnalysisCache Loc) : LspAnalysisCache Loc :=
  (({ c with cache := insert uri result c.cache }.touch uri).unindexUri uri).indexUri uri

def removeUri (uri : Uri) (c : LspAnalysisCache Loc) : LspAnalysisCache Loc :=
  ({ c with cache := remove uri c.cache }.unlink uri).unindexUri uri

/-- Evict a document whose node is known. -/
def evictNode (node : Nat × Uri) (c : LspAnalysisCache Loc) : LspAnalysisCache Loc :=
  { c with
    cache := remove node.2 c.cache
    lruIndex := remove node.2 c.lruIndex
    lruList := c.lruList.erase node.1 }.unindexUri node.2

/-- The loop of `evictOne`. The predicate may keep a state of its own. -/
def evictFrom (canEvict : σ → Uri → Bool × σ) (c : LspAnalysisCache Loc) :
    List (Nat × Uri) → σ → Bool × LspAnalysisCache Loc × σ
  | [], s => (false, c, s)
  | node :: nodes, s =>
    match canEvict s node.2 with
    | (true, s) => (true, c.evictNode node, s)
    | (false, s) => evictFrom canEvict c nodes s

/-- Evict the document used longest ago among those that may be evicted. -/
def evictOne (canEvict : σ → Uri → Bool × σ) (c : LspAnalysisCache Loc) (s : σ) : Bool × LspAnalysisCache Loc × σ :=
  evictFrom canEvict c c.lruList.nodes s

/-- Move the first document to the end. -/
def rotate (node : Nat × Uri) (c : LspAnalysisCache Loc) : LspAnalysisCache Loc :=
  { c with lruList := c.lruList.toBack node.1, lruIndex := insert node.2 node.1 c.lruIndex }

theorem lruList_unindexUri {uri : Uri} {c : LspAnalysisCache Loc} : (c.unindexUri uri).lruList = c.lruList := by
  unfold unindexUri
  split <;> rfl

/-- The loop of `evictToLimit`: every round drops a document or skips one more. -/
def evictRounds (canEvict : σ → Uri → Bool × σ) (skipped : Nat) (c : LspAnalysisCache Loc) (s : σ) :
    LspAnalysisCache Loc × σ :=
  match _hnodes : c.lruList.nodes with
  | [] => (c, s)
  | node :: _ =>
    if c.lruList.nodes.length ≤ c.maxEntries ∨ skipped ≥ c.lruList.nodes.length then (c, s)
    else
      match canEvict s node.2 with
      | (true, s) => evictRounds canEvict 0 (c.evictNode node) s
      | (false, s) => evictRounds canEvict (skipped + 1) (c.rotate node) s
termination_by (c.lruList.nodes.length, c.lruList.nodes.length - skipped)
decreasing_by
  · refine Prod.Lex.left _ _ ?_
    rw [evictNode, lruList_unindexUri, LinkedList.nodes_erase, _hnodes, List.filter_cons_of_neg (by simp)]
    exact Nat.lt_succ_of_le (List.length_filter_le _ _)
  · have hlength : (c.rotate node).lruList.nodes.length = c.lruList.nodes.length :=
      LinkedList.length_toBack
    rw [hlength]
    exact Prod.Lex.right _ (by omega)

def evictToLimit (canEvict : σ → Uri → Bool × σ) (c : LspAnalysisCache Loc) (s : σ) : LspAnalysisCache Loc × σ :=
  evictRounds canEvict 0 c s

/-! ## Include dependents -/

def addIncludeDependent (includeUri : Bytes) (dependentUri : Uri) (c : LspAnalysisCache Loc) : LspAnalysisCache Loc :=
  let dependents := (lookup includeUri c.includeDependents).getD []
  let dependents := if dependentUri ∈ dependents then dependents else dependents ++ [dependentUri]
  { c with includeDependents := insert includeUri dependents c.includeDependents }

/-- Remove a document from all dependency sets, and the sets that become empty. -/
def removeDependent (uri : Uri) (c : LspAnalysisCache Loc) : LspAnalysisCache Loc :=
  let filtered := c.includeDependents.map fun entry => (entry.1, entry.2.filter (· ≠ uri))
  { c with includeDependents := filtered.filter fun entry => entry.2 ≠ [] }

end LspAnalysisCache

/-! ## Transactions -/

structure CacheTransaction (Loc : Type) where
  uri : Uri
  pendingResult : Option (AnalysisResult Loc) := none
  pendingIncludeDeps : List Bytes := []
  finished : Bool := false

namespace CacheTransaction

def setResult (result : AnalysisResult Loc) (t : CacheTransaction Loc) : Except String (CacheTransaction Loc) :=
  if t.finished then .error "CacheTransaction::set_result called on a finished transaction"
  else .ok { t with pendingResult := some result }

def addIncludeDependent (includePath : Bytes) (t : CacheTransaction Loc) : Except String (CacheTransaction Loc) :=
  if t.finished then .error "CacheTransaction::add_include_dependent called on a finished transaction"
  else .ok { t with pendingIncludeDeps := t.pendingIncludeDeps ++ [includePath] }

/-- Apply the include edges, and then the result if one was staged. -/
def commit (t : CacheTransaction Loc) (c : LspAnalysisCache Loc) :
    Except String (CacheTransaction Loc × LspAnalysisCache Loc) :=
  if t.finished then .error "CacheTransaction::commit called on a finished transaction"
  else
    let c := t.pendingIncludeDeps.foldl (fun c path => c.addIncludeDependent path t.uri) (c.removeDependent t.uri)
    .ok ({ t with finished := true }, match t.pendingResult with
      | some result => c.insertResult t.uri result
      | none => c)

def rollback (t : CacheTransaction Loc) : CacheTransaction Loc :=
  { t with finished := true, pendingResult := none, pendingIncludeDeps := [] }

/-- What is left of a transaction whose members were moved to another. -/
def movedFrom (t : CacheTransaction Loc) : CacheTransaction Loc := { t with finished := true }

end CacheTransaction

/-! ## Runs -/

/-- A cache, and the transactions that were begun and not destroyed. -/
structure CacheSession (Loc : Type) where
  cache : LspAnalysisCache Loc
  transactions : List (Nat × CacheTransaction Loc) := []
  begun : Nat := 0

/-- What the server asks of the cache and of its transactions. -/
inductive AnalysisRequest (Loc σ : Type) where
  | insert (uri : Uri) (result : AnalysisResult Loc)
  | remove (uri : Uri)
  | touch (uri : Uri)
  | evictOne (canEvict : σ → Uri → Bool × σ) (s : σ)
  | evictToLimit (canEvict : σ → Uri → Bool × σ) (s : σ)
  | beginUpdate (uri : Uri)
  | setResult (t : Nat) (result : AnalysisResult Loc)
  | addIncludeDependent (t : Nat) (includePath : Bytes)
  | commit (t : Nat)
  | rollback (t : Nat)
  | move (t : Nat)
  | destroy (t : Nat)

inductive AnalysisAnswer where
  | done
  | evicted (b : Bool)
  | error (message : String)

namespace CacheSession

def new (maxEntries : Nat) : CacheSession Loc := { cache := { maxEntries } }

/-- Replace a transaction by what an operation makes of it. -/
def stage (t : Nat) (f : CacheTransaction Loc → Except String (CacheTransaction Loc)) (s : CacheSession Loc) :
    AnalysisAnswer × CacheSession Loc :=
  match lookup t s.transactions with
  | none => (.done, s)
  | some transaction =>
    match f transaction with
    | .error message => (.error message, s)
    | .ok next => (.done, { s with transactions := OrderedMap.insert t next s.transactions })

def commit (t : Nat) (s : CacheSession Loc) : AnalysisAnswer × CacheSession Loc :=
  match lookup t s.transactions with
  | none => (.done, s)
  | some transaction =>
    match transaction.commit s.cache with
    | .error message => (.error message, s)
    | .ok (next, cache) => (.done, { s with cache, transactions := OrderedMap.insert t next s.transactions })

/-- Begin another transaction with given contents. -/
def beginWith (transaction : CacheTransaction Loc) (s : CacheSession Loc) : CacheSession Loc :=
  { s with transactions := s.transactions ++ [(s.begun, transaction)], begun := s.begun + 1 }

def move (t : Nat) (s : CacheSession Loc) : CacheSession Loc :=
  match lookup t s.transactions with
  | none => s
  | some transaction =>
    { s with transactions := OrderedMap.insert t transaction.movedFrom s.transactions }.beginWith transaction

def answer : AnalysisRequest Loc σ → CacheSession Loc → AnalysisAnswer × CacheSession Loc
  | .insert uri result, s => (.done, { s with cache := s.cache.insertResult uri result })
  | .remove uri, s => (.done, { s with cache := s.cache.removeUri uri })
  | .touch uri, s => (.done, { s with cache := s.cache.touch uri })
  | .evictOne canEvict state, s =>
    let (evicted, cache, _) := s.cache.evictOne canEvict state
    (.evicted evicted, { s with cache })
  | .evictToLimit canEvict state, s => (.done, { s with cache := (s.cache.evictToLimit canEvict state).1 })
  | .beginUpdate uri, s => (.done, s.beginWith { uri })
  | .setResult t result, s => s.stage t (·.setResult result)
  | .addIncludeDependent t includePath, s => s.stage t (·.addIncludeDependent includePath)
  | .commit t, s => s.commit t
  | .rollback t, s => s.stage t fun transaction => .ok transaction.rollback
  | .move t, s => (.done, s.move t)
  | .destroy t, s => (.done, { s with transactions := OrderedMap.remove t s.transactions })

end CacheSession

-- The equations of the definitions are derived here, once for all proofs.
section
attribute [local simp] LspAnalysisCache.indexSymbols LspAnalysisCache.unindexNames LspAnalysisCache.evictFrom
  CacheSession.answer
end

end Luma.LanguageServer
