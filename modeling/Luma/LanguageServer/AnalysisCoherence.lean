-- SUMMARY: The containers of the analysis cache agree after every run.
import Luma.LanguageServer.AnalysisCache
import Mathlib.Logic.Function.Basic

/-! # Coherence of the Analysis Cache

After every run the list, its index and the results hold the same documents, each once, and
the symbol index holds one entry for each definition and function of a cached result. -/

namespace Luma.LanguageServer

open Codec OrderedMap

variable {Loc σ : Type}

/-! ## Definition sites -/

/-- The locations a document has under a name of the index. -/
def sites (symbolIndex : List (Bytes × List (IndexEntry Loc))) (uri : Uri) (name : Bytes) : List Loc :=
  (((lookup name symbolIndex).getD []).filter fun entry => entry.uri = uri).map IndexEntry.location

namespace AnalysisResult

/-- The locations of the definitions and then of the functions of a name. -/
def sites (result : AnalysisResult Loc) (name : Bytes) : List Loc :=
  ((result.definitions ++ result.userFunctions).filter fun symbol => symbol.1 = name).map Prod.snd

def names (result : AnalysisResult Loc) : List Bytes :=
  result.definitions.map Prod.fst ++ result.userFunctions.map Prod.fst

theorem sites_of_notMem {result : AnalysisResult Loc} {name : Bytes} (hname : name ∉ result.names) :
    result.sites name = [] := by
  rw [sites, List.filter_eq_nil_iff.mpr, List.map_nil]
  intro symbol hsymbol heq
  refine hname ?_
  rw [names, ← List.map_append]
  exact List.mem_map.mpr ⟨symbol, hsymbol, of_decide_eq_true heq⟩

end AnalysisResult

/-- The names of the index are distinct, and each has an entry. -/
structure Filled (symbolIndex : List (Bytes × List (IndexEntry Loc))) : Prop where
  nodup : (keys symbolIndex).Nodup
  filled : ∀ bucket ∈ symbolIndex, bucket.2 ≠ []

variable {symbolIndex : List (Bytes × List (IndexEntry Loc))} {uri other : Uri} {name name' : Bytes}

section

open LspAnalysisCache

theorem sites_pushEntry {location : Loc} : sites (pushEntry name { uri, location } symbolIndex) other name' =
    sites symbolIndex other name' ++ if uri = other ∧ name = name' then [location] else [] := by
  rw [sites, sites, pushEntry, lookup_insert]
  by_cases hname : name = name'
  · subst hname
    rw [if_pos rfl, Option.getD_some, List.filter_append, List.map_append]
    by_cases huri : uri = other <;> simp [huri]
  · rw [if_neg hname, if_neg fun h => hname h.2, List.append_nil]

theorem sites_indexSymbols {symbols : List (Bytes × Loc)} : sites (indexSymbols uri symbols symbolIndex) other name =
    sites symbolIndex other name ++
      if uri = other then (symbols.filter fun symbol => symbol.1 = name).map Prod.snd else [] := by
  induction symbols generalizing symbolIndex with
  | nil => simp [indexSymbols]
  | cons symbol symbols ih =>
    obtain ⟨first, location⟩ := symbol
    rw [indexSymbols, ih, sites_pushEntry, List.append_assoc]
    by_cases huri : uri = other <;> by_cases hname : first = name <;> simp [huri, hname]

theorem sites_unindexName : sites (unindexName uri name symbolIndex) other name' =
    if uri = other ∧ name = name' then [] else sites symbolIndex other name' := by
  unfold unindexName
  cases hbucket : lookup name symbolIndex with
  | none =>
    dsimp only
    by_cases h : uri = other ∧ name = name'
    · rw [if_pos h, sites, ← h.2, hbucket]
      rfl
    · rw [if_neg h]
  | some bucket =>
    dsimp only
    by_cases hname : name = name'
    · subst hname
      have hfiltered : sites (if (bucket.filter fun entry => entry.uri ≠ uri).isEmpty then remove name symbolIndex
          else insert name (bucket.filter fun entry => entry.uri ≠ uri) symbolIndex) other name =
          ((bucket.filter fun entry => entry.uri ≠ uri).filter fun entry => entry.uri = other).map
            IndexEntry.location := by
        rw [sites]
        split
        · next hempty => rw [lookup_remove, if_pos rfl, List.isEmpty_iff.mp hempty]; rfl
        · rw [lookup_insert, if_pos rfl]; rfl
      rw [hfiltered, List.filter_filter]
      by_cases huri : uri = other
      · rw [if_pos ⟨huri, rfl⟩, List.filter_eq_nil_iff.mpr, List.map_nil]
        intro entry _
        simp [huri]
      · rw [if_neg fun h => huri h.1, sites, hbucket, Option.getD_some]
        refine congrArg _ (List.filter_congr fun entry _ => ?_)
        by_cases hentry : entry.uri = other
        · simp [hentry, Ne.symm huri]
        · simp [hentry]
    · have hother : ¬ (uri = other ∧ name = name') := fun h => hname h.2
      rw [if_neg hother, sites, sites]
      by_cases hempty : (bucket.filter fun entry => entry.uri ≠ uri).isEmpty = true
      · rw [if_pos hempty, lookup_remove, if_neg hname]
      · rw [if_neg hempty, lookup_insert, if_neg hname]

theorem sites_unindexNames {names : List Bytes} : sites (unindexNames uri names symbolIndex) other name =
    if uri = other ∧ name ∈ names then [] else sites symbolIndex other name := by
  induction names generalizing symbolIndex with
  | nil => simp [unindexNames]
  | cons first names ih =>
    rw [unindexNames, ih, sites_unindexName]
    by_cases hfirst : name = first
    · subst hfirst
      by_cases huri : uri = other <;> simp [huri]
    · by_cases huri : uri = other <;> by_cases hname : name ∈ names <;> simp [huri, hname, hfirst, Ne.symm hfirst]

namespace Filled

theorem pushEntry (h : Filled symbolIndex) {entry : IndexEntry Loc} : Filled (pushEntry name entry symbolIndex) where
  nodup := nodup_insert h.nodup
  filled bucket hbucket := by
    obtain rfl | hbucket := mem_of_mem_insert hbucket
    · exact List.concat_ne_nil _ _
    · exact h.filled bucket hbucket

theorem indexSymbols (h : Filled symbolIndex) {symbols : List (Bytes × Loc)} :
    Filled (indexSymbols uri symbols symbolIndex) := by
  induction symbols generalizing symbolIndex with
  | nil => exact h
  | cons symbol symbols ih => exact ih h.pushEntry

theorem unindexName (h : Filled symbolIndex) : Filled (unindexName uri name symbolIndex) := by
  unfold LspAnalysisCache.unindexName
  split
  · exact h
  · next bucket _ =>
    dsimp only
    split
    · exact ⟨nodup_remove h.nodup, fun bucket hbucket => h.filled bucket (List.mem_of_mem_filter hbucket)⟩
    · next hsome =>
      refine ⟨nodup_insert h.nodup, fun other hother => ?_⟩
      obtain rfl | hother := mem_of_mem_insert hother
      · exact fun hnil => hsome (List.isEmpty_iff.mpr hnil)
      · exact h.filled other hother

theorem unindexNames (h : Filled symbolIndex) {names : List Bytes} : Filled (unindexNames uri names symbolIndex) := by
  induction names generalizing symbolIndex with
  | nil => exact h
  | cons first names ih => exact ih h.unindexName

end Filled

end

/-! ## The index of some results -/

/-- The symbol index holds an entry for each symbol of these results and no other, and the
    names of each document are recorded. -/
structure IndexOf (results : Uri → Option (AnalysisResult Loc)) (c : LspAnalysisCache Loc) : Prop where
  named : ∀ uri, lookup uri c.uriSymbols = (results uri).map AnalysisResult.names
  indexed : ∀ uri name, sites c.symbolIndex uri name = ((results uri).map (·.sites name)).getD []
  filled : Filled c.symbolIndex

namespace IndexOf

variable {results : Uri → Option (AnalysisResult Loc)} {c : LspAnalysisCache Loc}

theorem congr (h : IndexOf results c) {results' : Uri → Option (AnalysisResult Loc)} {c' : LspAnalysisCache Loc}
    (hresults : ∀ uri, results' uri = results uri) (hsymbols : c'.symbolIndex = c.symbolIndex)
    (hnames : c'.uriSymbols = c.uriSymbols) : IndexOf results' c' := by
  obtain rfl : results' = results := funext hresults
  exact ⟨hnames ▸ h.named, hsymbols ▸ h.indexed, hsymbols ▸ h.filled⟩

/-- Unindexing a document takes away its entries and no other. -/
theorem unindexUri (h : IndexOf results c) (uri : Uri) : IndexOf (Function.update results uri none) (c.unindexUri uri) := by
  unfold LspAnalysisCache.unindexUri
  have hnamed := h.named uri
  cases hresult : results uri with
  | none =>
    rw [hresult, Option.map_none] at hnamed
    rw [hnamed]
    exact h.congr (fun other => by rw [← hresult, Function.update_eq_self]) rfl rfl
  | some result =>
    rw [hresult, Option.map_some] at hnamed
    rw [hnamed]
    refine ⟨fun other => ?_, fun other name => ?_, h.filled.unindexNames⟩
    · dsimp only
      rw [lookup_remove, Function.update_apply]
      by_cases huri : uri = other
      · rw [if_pos huri, if_pos huri.symm]; rfl
      · rw [if_neg huri, if_neg (Ne.symm huri), h.named]
    · dsimp only
      rw [sites_unindexNames, Function.update_apply]
      by_cases huri : uri = other
      · subst huri
        rw [if_pos rfl]
        by_cases hname : name ∈ result.names
        · rw [if_pos ⟨rfl, hname⟩]; rfl
        · rw [if_neg fun h => hname h.2, h.indexed, hresult]
          exact AnalysisResult.sites_of_notMem hname
      · rw [if_neg fun h => huri h.1, if_neg (Ne.symm huri), h.indexed]

/-- Indexing a document that is not indexed adds the entries of its result. -/
theorem indexUri (h : IndexOf results c) {uri : Uri} {result : AnalysisResult Loc} (hnone : results uri = none)
    (hcached : lookup uri c.cache = some result) :
    IndexOf (Function.update results uri (some result)) (c.indexUri uri) := by
  have hnamed := h.named uri
  rw [hnone, Option.map_none] at hnamed
  unfold LspAnalysisCache.indexUri
  rw [hcached]
  dsimp only
  rw [hnamed, Option.getD_none, List.nil_append]
  refine ⟨fun other => ?_, fun other name => ?_, h.filled.indexSymbols.indexSymbols⟩
  · dsimp only
    rw [lookup_insert, Function.update_apply]
    by_cases huri : uri = other
    · rw [if_pos huri, if_pos huri.symm]; rfl
    · rw [if_neg huri, if_neg (Ne.symm huri), h.named]
  · dsimp only
    rw [sites_indexSymbols, sites_indexSymbols, Function.update_apply, h.indexed]
    by_cases huri : uri = other
    · subst huri
      rw [if_pos rfl, if_pos rfl, if_pos rfl, hnone, Option.map_none, Option.getD_none, List.nil_append,
        Option.map_some, Option.getD_some, AnalysisResult.sites, List.filter_append, List.map_append]
    · rw [if_neg huri, if_neg huri, if_neg (Ne.symm huri), List.append_nil, List.append_nil]

end IndexOf

/-! ## Documents by use -/

/-- The list and its index hold the documents, each once. -/
def Listed (c : LspAnalysisCache Loc) : Prop := c.lruList.Indexes id c.lruIndex

section

variable {c : LspAnalysisCache Loc}

theorem Listed.nodup (h : Listed c) : c.lruList.elements.Nodup := by
  have hunique := h.unique
  rwa [List.map_id] at hunique

theorem Listed.unlink (h : Listed c) (uri : Uri) :
    Listed (c.unlink uri) ∧ (c.unlink uri).lruList.elements = c.lruList.elements.filter (· ≠ uri) := by
  unfold LspAnalysisCache.unlink
  cases hlookup : lookup uri c.lruIndex with
  | none =>
    refine ⟨h, (List.filter_eq_self.mpr fun other hother => decide_eq_true ?_).symm⟩
    exact h.lookup_eq_none.mp hlookup other hother
  | some node =>
    obtain ⟨found, hnode, rfl⟩ := h.lookup_eq_some.mp hlookup
    exact ⟨h.erase hnode, h.elements_erase hnode⟩

theorem Listed.touch (h : Listed c) (uri : Uri) :
    Listed (c.touch uri) ∧ (c.touch uri).lruList.elements = c.lruList.elements.filter (· ≠ uri) ++ [uri] := by
  obtain ⟨hunlink, helements⟩ := h.unlink uri
  have hnew : ∀ other ∈ (c.unlink uri).lruList.elements, id other ≠ id uri := by
    intro other hother
    rw [helements] at hother
    exact of_decide_eq_true (List.mem_filter.mp hother).2
  refine ⟨?_, by rw [← helements]; exact LinkedList.elements_pushBack⟩
  have hkey : uri ∉ keys (c.unlink uri).lruIndex := OrderedMap.lookup_eq_none.mp (hunlink.lookup_eq_none.mpr hnew)
  have hindex := hunlink.pushBack hnew
  rw [Listed, LspAnalysisCache.touch]
  dsimp only
  rwa [insert_of_notMem hkey]

theorem Listed.evictNode (h : Listed c) {node : Nat × Uri} (hnode : node ∈ c.lruList.nodes) :
    Listed (c.evictNode node) ∧ (c.evictNode node).lruList.elements = c.lruList.elements.filter (· ≠ node.2) := by
  unfold LspAnalysisCache.evictNode LspAnalysisCache.unindexUri
  split <;> exact ⟨h.erase hnode, h.elements_erase hnode⟩

/-- Moving the first document to the end leaves the index as it is. -/
theorem Listed.rotate (h : Listed c) {node : Nat × Uri} {nodes : List (Nat × Uri)}
    (hnodes : c.lruList.nodes = node :: nodes) :
    Listed (c.rotate node) ∧ (c.rotate node).lruList.elements = nodes.map Prod.snd ++ [node.2] := by
  have hnode : node ∈ c.lruList.nodes := hnodes ▸ List.mem_cons_self
  have hlookup : lookup node.2 c.lruIndex = some node.1 := h.lookup_eq_some.mpr ⟨node.2, hnode, rfl⟩
  constructor
  · rw [Listed, LspAnalysisCache.rotate]
    dsimp only
    rw [insert_of_lookup hlookup]
    exact h.toBack hnode
  · refine (h.elements_toBack hnode).trans ?_
    have hnodup := h.nodup
    rw [LinkedList.elements, hnodes, List.map_cons, List.nodup_cons] at hnodup
    rw [LinkedList.elements, hnodes, List.map_cons, List.filter_cons_of_neg (by simp), List.filter_eq_self.mpr]
    intro other hother
    exact decide_eq_true fun heq : other = node.2 => hnodup.1 (heq ▸ hother)

end

/-! ## Coherence -/

/-- The containers of the cache agree. -/
structure Coherent (c : LspAnalysisCache Loc) : Prop where
  listed : Listed c
  nodup : (keys c.cache).Nodup
  cached : ∀ uri, uri ∈ keys c.cache ↔ uri ∈ c.lruList.elements
  index : IndexOf (fun uri => lookup uri c.cache) c

namespace Coherent

variable {c : LspAnalysisCache Loc}

theorem new (maxEntries : Nat) : Coherent ({ maxEntries } : LspAnalysisCache Loc) where
  listed := .empty
  nodup := List.nodup_nil
  cached _ := Iff.rfl
  index := ⟨fun _ => rfl, fun _ _ => rfl, List.nodup_nil, fun _ h => absurd h List.not_mem_nil⟩

/-- A document that is used becomes the last one; all other containers stay. -/
theorem touch (h : Coherent c) {uri : Uri} (huri : uri ∈ keys c.cache) : Coherent (c.touch uri) := by
  obtain ⟨hlisted, helements⟩ := h.listed.touch uri
  have hcache : (c.touch uri).cache = c.cache ∧ (c.touch uri).symbolIndex = c.symbolIndex ∧
      (c.touch uri).uriSymbols = c.uriSymbols := by
    unfold LspAnalysisCache.touch LspAnalysisCache.unlink
    split <;> exact ⟨rfl, rfl, rfl⟩
  refine ⟨hlisted, hcache.1 ▸ h.nodup, fun other => ?_, ?_⟩
  · rw [hcache.1, helements, List.mem_append, List.mem_filter, List.mem_singleton, ← h.cached]
    by_cases heq : other = uri
    · exact iff_of_true (heq ▸ huri) (.inr heq)
    · simp [heq]
  · exact h.index.congr (fun other => by rw [hcache.1]) hcache.2.1 hcache.2.2

theorem insertResult (h : Coherent c) (uri : Uri) (result : AnalysisResult Loc) :
    Coherent (c.insertResult uri result) := by
  let stored : LspAnalysisCache Loc := { c with cache := OrderedMap.insert uri result c.cache }
  obtain ⟨hlisted, helements⟩ := Listed.touch (c := stored) h.listed uri
  have htouched : (stored.touch uri).cache = stored.cache ∧ (stored.touch uri).symbolIndex = c.symbolIndex ∧
      (stored.touch uri).uriSymbols = c.uriSymbols := by
    unfold LspAnalysisCache.touch LspAnalysisCache.unlink
    split <;> exact ⟨rfl, rfl, rfl⟩
  have hunindexed : ((stored.touch uri).unindexUri uri).cache = stored.cache ∧
      ((stored.touch uri).unindexUri uri).lruList = (stored.touch uri).lruList ∧
      ((stored.touch uri).unindexUri uri).lruIndex = (stored.touch uri).lruIndex := by
    rw [← htouched.1]
    unfold LspAnalysisCache.unindexUri
    split <;> exact ⟨rfl, rfl, rfl⟩
  have hindexed : (c.insertResult uri result).cache = stored.cache ∧
      (c.insertResult uri result).lruList = (stored.touch uri).lruList ∧
      (c.insertResult uri result).lruIndex = (stored.touch uri).lruIndex := by
    rw [← hunindexed.1, ← hunindexed.2.1, ← hunindexed.2.2]
    unfold LspAnalysisCache.insertResult LspAnalysisCache.indexUri
    split <;> exact ⟨rfl, rfl, rfl⟩
  have hlookup : lookup uri ((stored.touch uri).unindexUri uri).cache = some result := by
    rw [hunindexed.1, lookup_insert, if_pos rfl]
  have hindex : IndexOf (fun other => lookup other c.cache) (stored.touch uri) :=
    h.index.congr (fun _ => rfl) htouched.2.1 htouched.2.2
  refine ⟨?_, ?_, fun other => ?_, ?_⟩
  · rw [Listed, hindexed.2.1, hindexed.2.2]
    exact hlisted
  · rw [hindexed.1]
    exact nodup_insert h.nodup
  · rw [hindexed.1, hindexed.2.1, helements, List.mem_append, List.mem_filter, List.mem_singleton, ← h.cached,
      keys_insert]
    by_cases heq : other = uri
    · refine iff_of_true ?_ (.inr heq)
      split
      · next hmem => exact heq ▸ hmem
      · exact List.mem_append_right _ (List.mem_singleton.mpr heq)
    · split <;> simp [heq]
  · refine ((hindex.unindexUri uri).indexUri (Function.update_self ..) hlookup).congr (fun other => ?_) rfl rfl
    rw [hindexed.1, lookup_insert, Function.update_apply, Function.update_apply]
    by_cases heq : uri = other
    · rw [if_pos heq, if_pos heq.symm]
    · rw [if_neg heq, if_neg (Ne.symm heq), if_neg (Ne.symm heq)]

/-- Whatever drops a document from every container keeps them coherent. -/
theorem drop (h : Coherent c) {c' : LspAnalysisCache Loc} {uri : Uri} (hlisted : Listed c')
    (helements : c'.lruList.elements = c.lruList.elements.filter (· ≠ uri))
    (hcache : c'.cache = OrderedMap.remove uri c.cache)
    (hindex : IndexOf (Function.update (fun other => lookup other c.cache) uri none) c') : Coherent c' := by
  refine ⟨hlisted, hcache ▸ nodup_remove h.nodup, fun other => ?_, hindex.congr (fun other => ?_) rfl rfl⟩
  · rw [hcache, helements, keys_remove, List.mem_filter, List.mem_filter, h.cached]
  · rw [hcache, lookup_remove, Function.update_apply]
    by_cases heq : uri = other
    · rw [if_pos heq, if_pos heq.symm]
    · rw [if_neg heq, if_neg (Ne.symm heq)]

theorem removeUri (h : Coherent c) (uri : Uri) : Coherent (c.removeUri uri) := by
  let erased : LspAnalysisCache Loc := { c with cache := OrderedMap.remove uri c.cache }
  obtain ⟨hlisted, helements⟩ := Listed.unlink (c := erased) h.listed uri
  have hunlinked : (erased.unlink uri).cache = erased.cache ∧ (erased.unlink uri).symbolIndex = c.symbolIndex ∧
      (erased.unlink uri).uriSymbols = c.uriSymbols := by
    unfold LspAnalysisCache.unlink
    split <;> exact ⟨rfl, rfl, rfl⟩
  have hindex : IndexOf (fun other => lookup other c.cache) (erased.unlink uri) :=
    h.index.congr (fun _ => rfl) hunlinked.2.1 hunlinked.2.2
  have hunindexed : (c.removeUri uri).cache = erased.cache ∧ (c.removeUri uri).lruList = (erased.unlink uri).lruList ∧
      (c.removeUri uri).lruIndex = (erased.unlink uri).lruIndex := by
    rw [← hunlinked.1]
    unfold LspAnalysisCache.removeUri LspAnalysisCache.unindexUri
    split <;> exact ⟨rfl, rfl, rfl⟩
  refine h.drop ?_ ?_ hunindexed.1 (hindex.unindexUri uri)
  · rw [Listed, hunindexed.2.1, hunindexed.2.2]
    exact hlisted
  · rw [hunindexed.2.1, helements]

theorem evictNode (h : Coherent c) {node : Nat × Uri} (hnode : node ∈ c.lruList.nodes) : Coherent (c.evictNode node) := by
  obtain ⟨hlisted, helements⟩ := h.listed.evictNode hnode
  refine h.drop hlisted helements ?_ (IndexOf.unindexUri ?_ node.2)
  · unfold LspAnalysisCache.evictNode LspAnalysisCache.unindexUri
    split <;> rfl
  · exact h.index.congr (fun _ => rfl) rfl rfl

theorem rotate (h : Coherent c) {node : Nat × Uri} {nodes : List (Nat × Uri)}
    (hnodes : c.lruList.nodes = node :: nodes) : Coherent (c.rotate node) := by
  obtain ⟨hlisted, helements⟩ := h.listed.rotate hnodes
  refine ⟨hlisted, h.nodup, fun other => ?_, h.index.congr (fun _ => rfl) rfl rfl⟩
  have hcached := h.cached other
  rw [LinkedList.elements, hnodes, List.map_cons, List.mem_cons] at hcached
  rw [helements, List.mem_append, List.mem_singleton, or_comm]
  exact hcached

theorem evictFrom (h : Coherent c) {canEvict : σ → Uri → Bool × σ} {nodes : List (Nat × Uri)} {s : σ}
    (hnodes : ∀ node ∈ nodes, node ∈ c.lruList.nodes) : Coherent (c.evictFrom canEvict nodes s).2.1 := by
  induction nodes generalizing s with
  | nil => exact h
  | cons node nodes ih =>
    rw [LspAnalysisCache.evictFrom]
    split
    · exact h.evictNode (hnodes node List.mem_cons_self)
    · exact ih fun other hother => hnodes other (List.mem_cons_of_mem _ hother)

/-- The include edges are no part of coherence. -/
theorem withDependents (h : Coherent c) (includeDependents : List (Bytes × List Uri)) :
    Coherent { c with includeDependents } :=
  ⟨h.listed, h.nodup, h.cached, h.index.congr (fun _ => rfl) rfl rfl⟩

theorem addIncludeDependents (h : Coherent c) (paths : List Bytes) (uri : Uri) :
    Coherent (paths.foldl (fun c path => c.addIncludeDependent path uri) c) := by
  induction paths generalizing c with
  | nil => exact h
  | cons path paths ih => exact ih (h.withDependents _)

end Coherent

/-! ## Eviction -/

/-- The predicate was asked for these documents one after another, and refused each. -/
def RefusedAll (canEvict : σ → Uri → Bool × σ) : List Uri → σ → σ → Prop
  | [], s, s' => s' = s
  | uri :: uris, s, s' => (canEvict s uri).1 = false ∧ RefusedAll canEvict uris (canEvict s uri).2 s'

theorem RefusedAll.concat {canEvict : σ → Uri → Bool × σ} {uris : List Uri} {uri : Uri} {s s' : σ}
    (h : RefusedAll canEvict uris s s') (hrefused : (canEvict s' uri).1 = false) :
    RefusedAll canEvict (uris ++ [uri]) s (canEvict s' uri).2 := by
  induction uris generalizing s with
  | nil =>
    obtain rfl := h
    exact ⟨hrefused, rfl⟩
  | cons first uris ih => exact ⟨h.1, ih h.2⟩

/-- What the loop keeps: the documents that were skipped were refused, and stand last. -/
structure Skipped (canEvict : σ → Uri → Bool × σ) (skipped : Nat) (c : LspAnalysisCache Loc) (s : σ) : Prop where
  coherent : Coherent c
  refused : ∃ front refused start, c.lruList.elements = front ++ refused ∧ refused.length = skipped ∧
    RefusedAll canEvict refused start s

/-- Eviction stops within the limit, or when every document that is left was refused. -/
theorem evictRounds_spec {canEvict : σ → Uri → Bool × σ} {skipped : Nat} {c : LspAnalysisCache Loc} {s : σ}
    (h : Skipped canEvict skipped c s) :
    Coherent (c.evictRounds canEvict skipped s).1 ∧
      (c.maxEntries < (c.evictRounds canEvict skipped s).1.lruList.elements.length →
        ∃ start, RefusedAll canEvict (c.evictRounds canEvict skipped s).1.lruList.elements start
          (c.evictRounds canEvict skipped s).2) := by
  fun_induction LspAnalysisCache.evictRounds canEvict skipped c s with
  | case1 skipped c s hnodes =>
    refine ⟨h.coherent, fun _ => ⟨s, ?_⟩⟩
    rw [LinkedList.elements, hnodes]
    rfl
  | case2 skipped c s node nodes hnodes hstop =>
    refine ⟨h.coherent, fun hmany => ?_⟩
    obtain ⟨front, refused, start, helements, hlength, hrefused⟩ := h.refused
    have hcount : c.lruList.nodes.length = front.length + refused.length := by
      rw [← List.length_append, ← helements, LinkedList.elements, List.length_map]
    rw [helements, List.length_append] at hmany
    have hfront : front = [] := List.eq_nil_of_length_eq_zero (by omega)
    exact ⟨start, by rwa [helements, hfront]⟩
  | case3 skipped c s node nodes hnodes hgo s' hask ih =>
    have hmax : (c.evictNode node).maxEntries = c.maxEntries := by
      unfold LspAnalysisCache.evictNode LspAnalysisCache.unindexUri
      split <;> rfl
    rw [← hmax]
    refine ih ⟨h.coherent.evictNode (hnodes ▸ List.mem_cons_self), _, [], s', (List.append_nil _).symm, rfl, rfl⟩
  | case4 skipped c s node nodes hnodes hgo s' hask ih =>
    refine ih ⟨h.coherent.rotate hnodes, ?_⟩
    obtain ⟨front, refused, start, helements, hlength, hrefused⟩ := h.refused
    rw [LinkedList.elements, hnodes, List.map_cons] at helements
    have hanswer : (canEvict s node.2).1 = false ∧ (canEvict s node.2).2 = s' := by rw [hask]; exact ⟨rfl, rfl⟩
    cases front with
    | nil =>
      have hcount := congrArg List.length helements
      rw [List.length_cons, List.length_map, List.nil_append] at hcount
      rw [hnodes, List.length_cons] at hgo
      omega
    | cons first front =>
      obtain ⟨rfl, htail⟩ := List.cons_eq_cons.mp helements
      refine ⟨front, refused ++ [node.2], start, ?_, ?_, hanswer.2 ▸ hrefused.concat hanswer.1⟩
      · rw [(h.coherent.listed.rotate hnodes).2, htail]
        exact List.append_assoc _ _ _
      · rw [List.length_append, hlength, List.length_singleton]

theorem evictToLimit_spec {canEvict : σ → Uri → Bool × σ} {c : LspAnalysisCache Loc} {s : σ} (h : Coherent c) :
    Coherent (c.evictToLimit canEvict s).1 ∧
      (c.maxEntries < (c.evictToLimit canEvict s).1.lruList.elements.length →
        ∃ start, RefusedAll canEvict (c.evictToLimit canEvict s).1.lruList.elements start
          (c.evictToLimit canEvict s).2) :=
  evictRounds_spec ⟨h, _, [], s, (List.append_nil _).symm, rfl, rfl⟩

/-! ## Transactions -/

/-- A transaction that was begun and can no longer be committed. -/
def Closed (t : Nat) (s : CacheSession Loc) : Prop :=
  t < s.begun ∧ ∀ transaction, lookup t s.transactions = some transaction → transaction.finished

/-- The requests that only stage or discard. -/
def AnalysisRequest.stages : AnalysisRequest Loc σ → Prop
  | .beginUpdate _ | .setResult _ _ | .addIncludeDependent _ _ | .rollback _ | .move _ | .destroy _ => True
  | _ => False

/-- The requests after which a transaction cannot be committed: it is rolled back, moved from or destroyed. -/
def AnalysisRequest.closes (t : Nat) : AnalysisRequest Loc σ → Prop
  | .rollback t' | .move t' | .destroy t' => t' = t
  | _ => False

section

variable {c : LspAnalysisCache Loc} {uri : Uri} {maxEntries : Nat}

theorem maxEntries_touch : (c.touch uri).maxEntries = c.maxEntries := by
  unfold LspAnalysisCache.touch LspAnalysisCache.unlink
  split <;> rfl

theorem maxEntries_unindexUri : (c.unindexUri uri).maxEntries = c.maxEntries := by
  unfold LspAnalysisCache.unindexUri
  split <;> rfl

theorem maxEntries_indexUri : (c.indexUri uri).maxEntries = c.maxEntries := by
  unfold LspAnalysisCache.indexUri
  split <;> rfl

theorem maxEntries_insertResult {result : AnalysisResult Loc} : (c.insertResult uri result).maxEntries = c.maxEntries :=
  maxEntries_indexUri.trans (maxEntries_unindexUri.trans maxEntries_touch)

theorem maxEntries_removeUri : (c.removeUri uri).maxEntries = c.maxEntries := by
  refine maxEntries_unindexUri.trans ?_
  unfold LspAnalysisCache.unlink
  split <;> rfl

theorem maxEntries_evictNode {node : Nat × Uri} : (c.evictNode node).maxEntries = c.maxEntries := maxEntries_unindexUri

theorem maxEntries_evictFrom {canEvict : σ → Uri → Bool × σ} {nodes : List (Nat × Uri)} {s : σ} :
    (c.evictFrom canEvict nodes s).2.1.maxEntries = c.maxEntries := by
  induction nodes generalizing s with
  | nil => rfl
  | cons node nodes ih =>
    rw [LspAnalysisCache.evictFrom]
    split
    · exact maxEntries_evictNode
    · exact ih

theorem maxEntries_evictRounds {canEvict : σ → Uri → Bool × σ} {skipped : Nat} {s : σ} :
    (c.evictRounds canEvict skipped s).1.maxEntries = c.maxEntries := by
  fun_induction LspAnalysisCache.evictRounds canEvict skipped c s with
  | case1 => rfl
  | case2 => rfl
  | case3 skipped c s node nodes hnodes hgo s' hask ih => exact ih.trans maxEntries_evictNode
  | case4 skipped c s node nodes hnodes hgo s' hask ih => exact ih

theorem maxEntries_addIncludeDependents {paths : List Bytes} :
    (paths.foldl (fun c path => c.addIncludeDependent path uri) c).maxEntries = c.maxEntries := by
  induction paths generalizing c with
  | nil => rfl
  | cons path paths ih => exact ih

end

/-- The cache is coherent and keeps its limit, and identities of transactions are not used again. -/
structure Sound (maxEntries : Nat) (s : CacheSession Loc) : Prop where
  coherent : Coherent s.cache
  maxEntries_eq : s.cache.maxEntries = maxEntries
  begun : ∀ t ∈ keys s.transactions, t < s.begun

/-- Only cached documents are touched. -/
def AnalysisRequest.May : AnalysisRequest Loc σ → CacheSession Loc → Prop
  | .touch uri, s => uri ∈ keys s.cache.cache
  | _, _ => True

section

variable {maxEntries t : Nat} {s : CacheSession Loc} {transaction : CacheTransaction Loc}

theorem CacheTransaction.commit_sound {next : CacheTransaction Loc} {c c' : LspAnalysisCache Loc} (h : Coherent c)
    (hcommit : transaction.commit c = .ok (next, c')) : Coherent c' ∧ c'.maxEntries = c.maxEntries := by
  unfold CacheTransaction.commit at hcommit
  split at hcommit
  · cases hcommit
  · cases hcommit
    have hedges := (h.withDependents (c.removeDependent transaction.uri).includeDependents).addIncludeDependents
      transaction.pendingIncludeDeps transaction.uri
    split
    · next result _ =>
      exact ⟨hedges.insertResult transaction.uri result, maxEntries_insertResult.trans maxEntries_addIncludeDependents⟩
    · exact ⟨hedges, maxEntries_addIncludeDependents⟩

namespace Sound

/-- A known transaction is replaced. -/
theorem replace (h : Sound maxEntries s) (hfound : lookup t s.transactions = some transaction)
    {c : LspAnalysisCache Loc} (hc : Coherent c) (hmax : c.maxEntries = maxEntries) (next : CacheTransaction Loc) :
    Sound maxEntries { s with cache := c, transactions := OrderedMap.insert t next s.transactions } := by
  refine ⟨hc, hmax, fun t' ht' => h.begun t' ?_⟩
  have hmem : t ∈ keys s.transactions := List.mem_map_of_mem (f := Prod.fst) (mem_of_lookup hfound)
  dsimp only at ht'
  rwa [keys_insert, if_pos hmem] at ht'

theorem beginWith (h : Sound maxEntries s) (transaction : CacheTransaction Loc) :
    Sound maxEntries (s.beginWith transaction) := by
  refine ⟨h.coherent, h.maxEntries_eq, fun t ht => ?_⟩
  rw [CacheSession.beginWith, keys, List.map_append] at ht
  obtain ht | ht := List.mem_append.mp ht
  · exact Nat.lt_succ_of_lt (h.begun t ht)
  · rw [List.mem_singleton.mp ht]
    exact Nat.lt_succ_self _

theorem stage (h : Sound maxEntries s) (t : Nat)
    (f : CacheTransaction Loc → Except String (CacheTransaction Loc)) : Sound maxEntries (s.stage t f).2 := by
  unfold CacheSession.stage
  split
  · exact h
  · next transaction hfound =>
    split
    · exact h
    · next next _ => exact h.replace hfound h.coherent h.maxEntries_eq next

/-- Every request keeps the cache coherent. -/
theorem answer (h : Sound maxEntries s) (request : AnalysisRequest Loc σ) (hmay : request.May s) :
    Sound maxEntries (CacheSession.answer request s).2 := by
  cases request with
  | insert uri result =>
    exact ⟨h.coherent.insertResult uri result, maxEntries_insertResult.trans h.maxEntries_eq, h.begun⟩
  | remove uri => exact ⟨h.coherent.removeUri uri, maxEntries_removeUri.trans h.maxEntries_eq, h.begun⟩
  | touch uri => exact ⟨h.coherent.touch hmay, maxEntries_touch.trans h.maxEntries_eq, h.begun⟩
  | evictOne canEvict state =>
    exact ⟨h.coherent.evictFrom fun _ hnode => hnode, maxEntries_evictFrom.trans h.maxEntries_eq, h.begun⟩
  | evictToLimit canEvict state =>
    exact ⟨(evictToLimit_spec h.coherent).1, maxEntries_evictRounds.trans h.maxEntries_eq, h.begun⟩
  | beginUpdate uri => exact h.beginWith { uri }
  | setResult t result => exact h.stage t _
  | addIncludeDependent t includePath => exact h.stage t _
  | commit t =>
    show Sound maxEntries (s.commit t).2
    unfold CacheSession.commit
    split
    · exact h
    · next transaction hfound =>
      split
      · exact h
      · next next c hcommit =>
        obtain ⟨hc, hmax⟩ := CacheTransaction.commit_sound h.coherent hcommit
        exact h.replace hfound hc (hmax.trans h.maxEntries_eq) next
  | rollback t => exact h.stage t _
  | move t =>
    show Sound maxEntries (s.move t)
    unfold CacheSession.move
    split
    · exact h
    · next transaction hfound =>
      exact (h.replace hfound h.coherent h.maxEntries_eq transaction.movedFrom).beginWith transaction
  | destroy t =>
    refine ⟨h.coherent, h.maxEntries_eq, fun t' ht' => h.begun t' ?_⟩
    exact (List.filter_sublist.map Prod.fst).mem ht'

end Sound

/-- Staging, discarding and moving transactions leaves the cache as it is. -/
theorem cache_of_stages {request : AnalysisRequest Loc σ} (hstages : request.stages) :
    (CacheSession.answer request s).2.cache = s.cache := by
  have hstage : ∀ t f, (s.stage t f).2.cache = s.cache := by
    intro t f
    unfold CacheSession.stage
    split
    · rfl
    · split <;> rfl
  cases request with
  | beginUpdate uri => rfl
  | setResult t result => exact hstage t _
  | addIncludeDependent t includePath => exact hstage t _
  | rollback t => exact hstage t _
  | move t =>
    show (s.move t).cache = s.cache
    unfold CacheSession.move
    split <;> rfl
  | destroy t => rfl
  | insert | remove | touch | evictOne | evictToLimit | commit => cases hstages

namespace Closed

/-- A closed transaction cannot be committed. -/
theorem commit (h : Closed t s) : (s.commit t).2 = s := by
  unfold CacheSession.commit
  cases hfound : lookup t s.transactions with
  | none => rfl
  | some transaction =>
    dsimp only
    rw [CacheTransaction.commit, if_pos (h.2 transaction hfound)]

theorem of_closes {request : AnalysisRequest Loc σ} (hbegun : t < s.begun) (hcloses : request.closes t) :
    Closed t (CacheSession.answer request s).2 := by
  cases request with
  | rollback t' =>
    obtain rfl := hcloses
    show Closed t' (s.stage t' _).2
    unfold CacheSession.stage
    cases hfound : lookup t' s.transactions with
    | none => exact ⟨hbegun, fun transaction hnone => by rw [hfound] at hnone; cases hnone⟩
    | some transaction =>
      refine ⟨hbegun, fun other hother => ?_⟩
      dsimp only at hother
      rw [lookup_insert, if_pos rfl] at hother
      cases hother
      rfl
  | move t' =>
    obtain rfl := hcloses
    show Closed t' (s.move t')
    unfold CacheSession.move
    cases hfound : lookup t' s.transactions with
    | none => exact ⟨hbegun, fun transaction hnone => by rw [hfound] at hnone; cases hnone⟩
    | some transaction =>
      refine ⟨Nat.lt_succ_of_lt hbegun, fun other hother => ?_⟩
      dsimp only [CacheSession.beginWith] at hother
      rw [lookup_append, lookup_insert, if_pos rfl] at hother
      cases hother
      rfl
  | destroy t' =>
    obtain rfl := hcloses
    refine ⟨hbegun, fun other hother => ?_⟩
    dsimp only [CacheSession.answer] at hother
    rw [lookup_remove, if_pos rfl] at hother
    cases hother
  | insert | remove | touch | evictOne | evictToLimit | commit | beginUpdate | setResult | addIncludeDependent =>
    cases hcloses

/-- Replacing a transaction by one that is finished if it was keeps the closed ones closed. -/
theorem replace (h : Closed t s) {t' : Nat} {next : CacheTransaction Loc} {c : LspAnalysisCache Loc}
    (hfound : lookup t' s.transactions = some transaction) (hnext : transaction.finished → next.finished) :
    Closed t { s with cache := c, transactions := OrderedMap.insert t' next s.transactions } := by
  refine ⟨h.1, fun other hother => ?_⟩
  dsimp only at hother
  rw [lookup_insert] at hother
  split at hother
  · next heq =>
    cases hother
    exact hnext (h.2 transaction (heq ▸ hfound))
  · exact h.2 other hother

theorem beginWith (h : Closed t s) (transaction : CacheTransaction Loc) : Closed t (s.beginWith transaction) := by
  refine ⟨Nat.lt_succ_of_lt h.1, fun other hother => ?_⟩
  rw [CacheSession.beginWith] at hother
  dsimp only at hother
  rw [lookup_append] at hother
  cases hfound : lookup t s.transactions with
  | some transaction' =>
    rw [hfound] at hother
    cases hother
    exact h.2 _ hfound
  | none =>
    rw [hfound, Option.none_or, lookup, if_neg (Nat.ne_of_gt h.1)] at hother
    cases hother

theorem stage (h : Closed t s) {t' : Nat} {f : CacheTransaction Loc → Except String (CacheTransaction Loc)}
    (hf : ∀ transaction next, f transaction = .ok next → transaction.finished → next.finished) :
    Closed t (s.stage t' f).2 := by
  unfold CacheSession.stage
  split
  · exact h
  · next transaction hfound =>
    split
    · exact h
    · next next hok => exact h.replace (c := s.cache) hfound (hf transaction next hok)

/-- A closed transaction stays closed. -/
theorem answer (h : Closed t s) (request : AnalysisRequest Loc σ) : Closed t (CacheSession.answer request s).2 := by
  cases request with
  | insert uri result => exact h
  | remove uri => exact h
  | touch uri => exact h
  | evictOne canEvict state => exact h
  | evictToLimit canEvict state => exact h
  | beginUpdate uri => exact h.beginWith _
  | setResult t' result =>
    refine h.stage fun transaction next hok hfinished => ?_
    rw [CacheTransaction.setResult, if_pos hfinished] at hok
    cases hok
  | addIncludeDependent t' includePath =>
    refine h.stage fun transaction next hok hfinished => ?_
    rw [CacheTransaction.addIncludeDependent, if_pos hfinished] at hok
    cases hok
  | commit t' =>
    show Closed t (s.commit t').2
    unfold CacheSession.commit
    split
    · exact h
    · next transaction hfound =>
      split
      · exact h
      · next next c hcommit =>
        refine h.replace hfound fun hfinished => ?_
        rw [CacheTransaction.commit, if_pos hfinished] at hcommit
        cases hcommit
  | rollback t' =>
    refine h.stage fun transaction next hok _ => ?_
    cases hok
    rfl
  | move t' =>
    show Closed t (s.move t')
    unfold CacheSession.move
    split
    · exact h
    · next transaction hfound => exact (h.replace (c := s.cache) hfound fun _ => rfl).beginWith _
  | destroy t' =>
    refine ⟨h.1, fun other hother => ?_⟩
    dsimp only [CacheSession.answer] at hother
    rw [lookup_remove] at hother
    split at hother
    · cases hother
    · exact h.2 other hother

end Closed

end

/-- After every run the containers hold the same documents and exactly their symbols,
    eviction leaves more documents than the limit only when each of them was refused, and a
    transaction changes nothing before it is committed or after it was closed. -/
theorem analysis_cache_coherence (maxEntries : Nat) (requests : List (AnalysisRequest Loc σ))
    (htouch : Serving.Asks CacheSession.answer AnalysisRequest.May requests (CacheSession.new maxEntries)) :
    let last := (Serving.serve CacheSession.answer requests (CacheSession.new maxEntries)).2
    let c := last.cache
    (c.lruList.elements.Nodup ∧ (keys c.cache).Perm c.lruList.elements ∧
      c.lruIndex.Perm (c.lruList.nodes.map fun node => (node.2, node.1))) ∧
    (∀ uri name, sites c.symbolIndex uri name = ((lookup uri c.cache).map (·.sites name)).getD []) ∧
    (∀ (canEvict : σ → Uri → Bool × σ) (s : σ),
      maxEntries < (c.evictToLimit canEvict s).1.lruList.elements.length →
        ∃ start, RefusedAll canEvict (c.evictToLimit canEvict s).1.lruList.elements start
          (c.evictToLimit canEvict s).2) ∧
    (∀ request : AnalysisRequest Loc σ, request.stages → (CacheSession.answer request last).2.cache = c) ∧
    ∀ before (request : AnalysisRequest Loc σ) after t, requests = before ++ request :: after →
      t < (Serving.serve CacheSession.answer before (CacheSession.new maxEntries : CacheSession Loc)).2.begun →
      request.closes t → (last.commit t).2 = last := by
  intro last c
  have hsound : Sound maxEntries last := by
    refine Serving.serve_invariant (fun request s h hmay => h.answer request hmay) htouch ?_
    exact ⟨.new maxEntries, rfl, fun _ ht => absurd ht List.not_mem_nil⟩
  have h := hsound.coherent
  refine ⟨⟨h.listed.nodup, ?_, h.listed.perm⟩, h.index.indexed, fun canEvict s => ?_, fun request hstages =>
    cache_of_stages hstages, fun before request after t hrequests hbegun hcloses => ?_⟩
  · exact (List.perm_ext_iff_of_nodup h.nodup h.listed.nodup).mpr h.cached
  · rw [← hsound.maxEntries_eq]
    exact (evictToLimit_spec h).2
  · have hclosed : Closed t last := by
      show Closed t (Serving.serve CacheSession.answer requests (CacheSession.new maxEntries)).2
      rw [hrequests, Serving.serve_append, Serving.serve_cons]
      exact Serving.serve_preserves (fun request s h => Closed.answer h request) (Closed.of_closes hbegun hcloses)
    exact hclosed.commit

theorem analysis_cache_coherence_touch :
    let requests : List (AnalysisRequest Nat Unit) :=
      [.insert [1] ⟨[([7], 10)], []⟩, .insert [2] ⟨[], [([7], 20)]⟩, .touch [1]]
    let last := (Serving.serve CacheSession.answer requests (CacheSession.new 1)).2
    (keys last.cache.cache).Perm last.cache.lruList.elements ∧ sites last.cache.symbolIndex [2] [7] = [20] := by
  intro requests last
  have hcached : ([1] : Uri) ∈ [[1], [2]] := by decide
  have h := analysis_cache_coherence 1 requests ⟨trivial, trivial, hcached, trivial⟩
  exact ⟨h.1.2.1, (h.2.1 [2] [7]).trans (by decide)⟩

end Luma.LanguageServer
