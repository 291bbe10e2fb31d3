-- SUMMARY: Includes are merged depth first and once, from checked paths, and every failure is reported.
import Luma.Include.IncludeResolver
import Luma.Library.DepthFirst

/-! # Include Resolution

The resolver refines depth-first expansion: a file stands in the place of its first include.
Whatever the outcome, a file is opened only where its path was checked, and the resolver
reports an error just when it fails. -/

namespace Luma.Include

open Codec DepthFirst

variable {D S Tokens : Type} {env : Setting D S}

/-! ## The source manager -/

namespace SourceManager

variable {m m' m'' : SourceManager} {fs : FileSystem} {maxSourceSize id : Nat} {file : SourceFile} {key path : String}

theorem lookup_eq_some (h : m.lookup key = some file) : file ∈ m.files ∧ file.path = key := by
  obtain ⟨id, hid, hfile⟩ := Option.bind_eq_some_iff.mp h
  obtain ⟨hpos, hpath⟩ := m.registered key id hid
  rw [getFile, if_neg (Nat.not_lt.mpr hpos)] at hfile
  rw [hfile] at hpath
  exact ⟨List.mem_of_getElem? hfile, Option.some.inj hpath⟩

theorem lookup_isSome : (m.lookup key).isSome = (m.pathToId key).isSome := by
  cases hid : m.pathToId key with
  | none =>
    rw [lookup, hid]
    rfl
  | some id =>
    obtain ⟨hpos, hpath⟩ := m.registered key id hid
    obtain ⟨file, hfile, -⟩ := Option.map_eq_some_iff.mp hpath
    rw [lookup, hid, Option.bind_some, getFile, if_neg (Nat.not_lt.mpr hpos), hfile]
    rfl

theorem fileId_le (h : file ∈ m.files) : file.fileId ≤ m.files.length := by
  obtain ⟨i, hi, rfl⟩ := List.getElem_of_mem h
  have hnumber : m.files[i].fileId = i + 1 := m.numbered i hi
  omega

/-- More files may have been registered, none forgotten. -/
def Later (m m' : SourceManager) : Prop := m.files <+: m'.files

theorem Later.refl : m.Later m := List.prefix_rfl

theorem Later.trans (h : m.Later m') (h' : m'.Later m'') : m.Later m'' := List.IsPrefix.trans h h'

theorem Later.mem (h : m.Later m') (hfile : file ∈ m.files) : file ∈ m'.files := h.subset hfile

theorem Later.getFile (h : m.Later m') (hid : id ≤ m.files.length) : m'.getFile id = m.getFile id := by
  unfold SourceManager.getFile
  split
  · rfl
  · exact (List.prefix_iff_getElem?.mp h (id - 1) (by omega)).trans (List.getElem?_eq_getElem (by omega)).symm

/-- What loading a text does to a source manager. -/
structure Loads (m m' : SourceManager) (file : SourceFile) : Prop where
  later : m.Later m'
  mem : file ∈ m'.files

theorem register_loads {text : Bytes} {isVirtual : Bool} :
    m.Loads (m.register key text isVirtual) (m.registeredFile key text isVirtual) :=
  ⟨List.prefix_append _ _, List.mem_append_right _ List.mem_cons_self⟩

theorem tryLoad_spec {result : Except String SourceFile} (h : m.tryLoad fs maxSourceSize path = (result, m')) :
    (∃ message, result = .error message ∧ m' = m) ∨ ∃ file, result = .ok file ∧ m.Loads m' file ∧
      file.path = fs.normalizePath path ∧ (m.isLoaded fs path = false →
        ∀ key, (m'.pathToId key).isSome = true ↔ key = fs.normalizePath path ∨ (m.pathToId key).isSome = true) := by
  unfold tryLoad at h
  dsimp only at h
  split at h
  next file hfile =>
    cases h
    obtain ⟨hmem, hpath⟩ := lookup_eq_some hfile
    refine Or.inr ⟨file, rfl, ⟨.refl, hmem⟩, hpath, fun hnew => ?_⟩
    have hsome : (m.lookup (fs.normalizePath path)).isSome = (m.pathToId (fs.normalizePath path)).isSome := lookup_isSome
    rw [hfile] at hsome
    exact absurd (hsome.trans hnew) Bool.false_ne_true.symm
  next =>
    split at h
    · exact Or.inl ⟨_, (Prod.mk.inj h).1.symm, (Prod.mk.inj h).2.symm⟩
    split at h
    · exact Or.inl ⟨_, (Prod.mk.inj h).1.symm, (Prod.mk.inj h).2.symm⟩
    · exact Or.inl ⟨_, (Prod.mk.inj h).1.symm, (Prod.mk.inj h).2.symm⟩
    split at h
    · exact Or.inl ⟨_, (Prod.mk.inj h).1.symm, (Prod.mk.inj h).2.symm⟩
    · cases h
      refine Or.inr ⟨_, rfl, register_loads, rfl, fun _ key => ?_⟩
      change (Function.update m.pathToId _ _ key).isSome = true ↔ _
      by_cases hkey : key = fs.normalizePath path
      · rw [hkey, Function.update_self]
        simp
      · rw [Function.update_of_ne hkey]
        simp [hkey]

theorem loadVirtual_spec {text : Bytes} (h : m.loadVirtual key text = (file, m')) :
    m.Loads m' file ∧ file.path = key := by
  unfold loadVirtual at h
  split at h
  next file' hfile =>
    cases h
    obtain ⟨hmem, hpath⟩ := lookup_eq_some hfile
    exact ⟨⟨.refl, hmem⟩, hpath⟩
  next =>
    cases h
    exact ⟨register_loads, rfl⟩

/-- A file that holds the text of a path: the file itself, or what it was read as again. -/
def IsTextOf (fs : FileSystem) (path : String) (file : SourceFile) : Prop :=
  file.path = fs.normalizePath path ∨ ∃ n : Nat, file.path = s!"{fs.normalizePath path} (reload {n})"

theorem loadFreshSource_spec {result : Except String SourceFile}
    (h : m.loadFreshSource fs maxSourceSize path = (result, m')) : (∃ message, result = .error message ∧ m' = m) ∨
      ∃ file, result = .ok file ∧ m.Loads m' file ∧ IsTextOf fs path file := by
  unfold loadFreshSource at h
  split at h
  · rcases tryLoad_spec h with hfail | ⟨file, rfl, hloads, hpath, -⟩
    · exact Or.inl hfail
    · exact Or.inr ⟨file, rfl, hloads, Or.inl hpath⟩
  · split at h
    next message hscratch =>
      cases h
      exact Or.inl ⟨message, rfl, rfl⟩
    next fresh hscratch =>
      have hpath : fresh.path = fs.normalizePath path := by
        rcases tryLoad_spec (Prod.ext hscratch rfl : SourceManager.empty.tryLoad fs maxSourceSize path = (_, _)) with
          ⟨message, hfail, -⟩ | ⟨file, hok, -, hpath, -⟩
        · cases hfail
        · cases hok
          exact hpath
      generalize hvirtual : m.loadVirtual s!"{fresh.path} (reload {m.files.length + 1})" fresh.text = loaded at h
      obtain ⟨file, m''⟩ := loaded
      cases h
      obtain ⟨hloads, hname⟩ := loadVirtual_spec hvirtual
      exact Or.inr ⟨file, rfl, hloads, Or.inr ⟨m.files.length + 1, by rw [hname, hpath]⟩⟩

end SourceManager

/-! ## Finding files -/

section Locate

variable {m m' : SourceManager} {decl : IncludeDeclaration} {canonical : String}

theorem includingDirectory_later {id : Nat} (h : m.Later m') (hid : id ≤ m.files.length) :
    includingDirectory env m' id = includingDirectory env m id := by
  unfold includingDirectory
  rw [h.getFile hid]

/-- Where an include leads does not depend on the files that are loaded after its own. -/
theorem locate_later (h : m.Later m') (hid : fileIdOf decl.location ≤ m.files.length) :
    locate env m' decl = locate env m decl := by
  unfold locate resolvePath rejectUnanchoredAbsolute enforceAllowedRoot
  rw [includingDirectory_later h hid]

/-- The checks that the path of an included file has passed. -/
structure Checked (env : Setting D S) (m : SourceManager) (decl : IncludeDeclaration) (canonical : String) : Prop where
  ofPath : ∃ includePath resolvedPath, Path.tryFromUtf8 decl.path = some includePath ∧
    resolvePath env m includePath (fileIdOf decl.location) = some resolvedPath ∧
    hasDirectoryTraversal includePath = false ∧ env.fs.isSymlinkOrContainsSymlinks resolvedPath = false ∧
    canonical = (env.fs.canonicalizeOr resolvedPath resolvedPath).toUtf8 ∧
    match includingDirectory env m (fileIdOf decl.location) with
    -- Input that is in no file reaches nothing by an absolute path.
    | none => includePath.rooted = false
    -- A file reaches what lies below its directory or below a search path.
    | some dir => ∃ base ∈ env.fs.canonicalizeOr dir .empty :: env.searchPaths,
        base.components <+: (env.fs.canonicalizeOr resolvedPath resolvedPath).components

theorem isPrefix_of_not_escapes {path root : Path} (h : canonicalEscapesRoot path root = false) :
    root.components <+: path.components := by
  rw [canonicalEscapesRoot, Bool.not_eq_false'] at h
  exact List.isPrefixOf_iff_prefix.mp h

theorem locate_checked (h : locate env m decl = .ok canonical) : Checked env m decl canonical := by
  unfold locate at h
  split at h
  · cases h
  next includePath hpath =>
    split at h
    · cases h
    next hfirst =>
      split at h
      · cases h
      next resolvedPath hresolved =>
        dsimp only at h
        split at h
        · cases h
        next hsecond =>
          cases h
          obtain ⟨htraversal, habsolute⟩ := Option.or_eq_none_iff.mp hfirst
          obtain ⟨hsymlinks, hroot⟩ := Option.or_eq_none_iff.mp hsecond
          refine ⟨includePath, resolvedPath, hpath, hresolved, ?_, ?_, rfl, ?_⟩
          · unfold rejectTraversal at htraversal
            split at htraversal
            · cases htraversal
            next htrav => exact Bool.eq_false_iff.mpr htrav
          · unfold rejectSymlinks at hsymlinks
            split at hsymlinks
            · cases hsymlinks
            next hlinks => exact Bool.eq_false_iff.mpr hlinks
          · unfold enforceAllowedRoot at hroot
            unfold rejectUnanchoredAbsolute at habsolute
            cases hdir : includingDirectory env m (fileIdOf decl.location) with
            | none =>
              rw [hdir] at habsolute
              split at habsolute
              next hrelative =>
                have hroot : includePath.rooted = false := by
                  simpa [Path.isAbsolute, Path.hasRootPath] using hrelative
                exact hroot
              · cases habsolute
            | some dir =>
              rw [hdir] at hroot
              dsimp only at hroot ⊢
              split at hroot
              · cases hroot
              split at hroot
              next hwithin =>
                unfold isWithinAllowedDirectories at hwithin
                rcases Bool.or_eq_true_iff.mp hwithin with hbase | hsearch
                · refine ⟨_, List.mem_cons_self, isPrefix_of_not_escapes ?_⟩
                  simpa using hbase
                · obtain ⟨base, hbase, hinside⟩ := List.any_eq_true.mp hsearch
                  refine ⟨base, List.mem_cons_of_mem _ hbase, isPrefix_of_not_escapes ?_⟩
                  simpa using hinside
              · cases hroot

end Locate

/-! ## What is merged -/

/-- What the result of a resolution consists of. -/
inductive Piece (D S : Type) where
  | declaration (decl : D)
  | statement (s : Statement S)

def Piece.declaration? : Piece D S → Option (Declaration D)
  | .declaration decl => some (.other decl)
  | .statement .. => none

def Piece.statement? : Piece D S → Option (Statement S)
  | .declaration .. => none
  | .statement s => some s

/-- How files are told apart: in a session by path, otherwise by the key of the source manager. -/
def keyOf (env : Setting D S) (session : Bool) (canonical : String) : String :=
  if session then canonical else env.fs.normalizePath canonical

/-- What a declaration contributes; none for an include that leads nowhere. -/
def itemOf (env : Setting D S) (session : Bool) (m : SourceManager) : Declaration D → Option (Item String (Piece D S))
  | .other decl => some (.leaf (.declaration decl))
  | .include decl =>
    match locate env m decl with
    | .ok canonical => some (.edge (keyOf env session canonical))
    | .error _ => none

/-- The statements of a program stand before all that it includes. -/
def itemsOf (env : Setting D S) (session : Bool) (m : SourceManager) (program : Program D S) :
    Option (List (Item String (Piece D S))) :=
  (program.declarations.mapM (itemOf env session m)).map
    ((program.statements.map fun s => .leaf (.statement s)) ++ ·)

/-- What a file consists of: the program that its text is parsed to. -/
def Content (env : Setting D S) (session : Bool) (m : SourceManager) (key : String)
    (items : List (Item String (Piece D S))) : Prop :=
  ∃ canonical file program, keyOf env session canonical = key ∧ file ∈ m.files ∧
    SourceManager.IsTextOf env.fs canonical file ∧ (env.parseFile file).1 = some program ∧
    itemsOf env session m program = some items

namespace IncludeResolver

/-- The files that count as included. -/
def seen (r : IncludeResolver) : Set String :=
  match r.sessionIncluded with
  | some included => {key | key ∈ included}
  | none => {key | (r.sourceManager.pathToId key).isSome = true}

def inSession (r : IncludeResolver) : Bool := r.sessionIncluded.isSome

theorem isAlreadyIncluded_iff {r : IncludeResolver} {canonical : String} :
    r.isAlreadyIncluded env canonical = true ↔ keyOf env r.inSession canonical ∈ r.seen := by
  obtain ⟨m, diagnostics, sessionIncluded, includedFiles⟩ := r
  cases sessionIncluded with
  | none => exact Iff.rfl
  | some included => exact List.contains_iff_mem

end IncludeResolver

/-! ## Outcomes -/

/-- The includes of the program, and of the files that were loaded. -/
def IsInclude (env : Setting D S) (program : Program D S) (m : SourceManager) (decl : IncludeDeclaration) : Prop :=
  .include decl ∈ program.declarations ∨
    ∃ file p, file ∈ m.files ∧ (env.parseFile file).1 = some p ∧ .include decl ∈ p.declarations

/-- The result says whether an error was reported. -/
def Reports (r r' : IncludeResolver) (ok : Bool) : Prop :=
  ∃ ds, r'.diagnostics = r.diagnostics ++ ds ∧ (ok = true ↔ ∀ d ∈ ds, d.isError = false)

theorem Reports.refl (r : IncludeResolver) : Reports r r true :=
  ⟨[], (List.append_nil _).symm, iff_of_true rfl fun _ hd => absurd hd List.not_mem_nil⟩

theorem Reports.trans {r r' r'' : IncludeResolver} {ok ok' : Bool} (h : Reports r r' ok) (h' : Reports r' r'' ok') :
    Reports r r'' (ok && ok') := by
  obtain ⟨ds, hds, hok⟩ := h
  obtain ⟨ds', hds', hok'⟩ := h'
  refine ⟨ds ++ ds', by rw [hds', hds, List.append_assoc], ?_⟩
  rw [Bool.and_eq_true, hok, hok']
  simp only [List.mem_append, or_imp, forall_and]

theorem reports_error {r : IncludeResolver} {message hint : String} {location : SourceLocation} :
    Reports r (r.emit .error message location hint) false :=
  ⟨_, rfl, iff_of_false Bool.false_ne_true fun h => Bool.false_ne_true (h _ List.mem_cons_self).symm⟩

/-- What resolving some declarations of a program makes of the resolver and of the program
    merged so far, whether it succeeds or not. -/
structure Outcome (env : Setting D S) (program : Program D S)
    (items : SourceManager → Option (List (Item String (Piece D S))))
    (r r' : IncludeResolver) (p p' : Program D S) (ok : Bool) : Prop where
  later : r.sourceManager.Later r'.sourceManager
  session : r'.inSession = r.inSession
  reports : Reports r r' ok
  included : ∃ cs, r'.includedFiles = r.includedFiles ++ cs ∧
    -- Each file entered is where an include led.
    (∀ m, r'.sourceManager.Later m → ∀ c ∈ cs, ∃ decl, IsInclude env program m decl ∧ locate env m decl = .ok c) ∧
    (ok = true → ∀ m, r'.sourceManager.Later m → ∃ contents visits out, items m = some contents ∧
      Expands (Content env r.inSession m) r.seen contents visits out ∧ r'.seen = after r.seen visits ∧
      visits.map Visit.node = cs.map (keyOf env r.inSession) ∧
      p'.declarations = p.declarations ++ out.filterMap Piece.declaration? ∧
      p'.statements = p.statements ++ out.filterMap Piece.statement?)

section Outcomes

variable {program : Program D S} {items items' items'' : SourceManager → Option (List (Item String (Piece D S)))}
  {r r' r'' : IncludeResolver} {p p' p'' : Program D S} {ok ok' : Bool}

theorem Outcome.refl : Outcome env program (fun _ => some []) r r p p true where
  later := .refl
  session := rfl
  reports := .refl r
  included := by
    refine ⟨[], (List.append_nil _).symm, fun _ _ _ hc => absurd hc List.not_mem_nil, fun _ _ _ => ?_⟩
    refine ⟨[], [], [], rfl, .done, after_nil.symm, rfl, ?_, ?_⟩
    · exact (List.append_nil _).symm
    · exact (List.append_nil _).symm

/-- A failure merges nothing. -/
theorem Outcome.failed (hlater : r.sourceManager.Later r'.sourceManager) (hsession : r'.inSession = r.inSession)
    (hreports : Reports r r' false) (cs : List String) (hfiles : r'.includedFiles = r.includedFiles ++ cs)
    (hchecked : ∀ m, r'.sourceManager.Later m → ∀ c ∈ cs, ∃ decl, IsInclude env program m decl ∧
      locate env m decl = .ok c) : Outcome env program items r r' p p' false where
  later := hlater
  session := hsession
  reports := hreports
  included := ⟨cs, hfiles, hchecked, fun h => absurd h Bool.false_ne_true⟩

theorem Outcome.rejected {message hint : String} {location : SourceLocation} :
    Outcome env program items r (r.emit .error message location hint) p p' false :=
  .failed .refl rfl reports_error [] (List.append_nil _).symm fun _ _ _ hc => absurd hc List.not_mem_nil

theorem Outcome.trans (h : Outcome env program items r r' p p' ok) (h' : Outcome env program items' r' r'' p' p'' ok')
    (hitems : ∀ m xs ys, items m = some xs → items' m = some ys → items'' m = some (xs ++ ys)) :
    Outcome env program items'' r r'' p p'' (ok && ok') where
  later := h.later.trans h'.later
  session := h'.session.trans h.session
  reports := h.reports.trans h'.reports
  included := by
    obtain ⟨cs, hfiles, hchecked, hmerged⟩ := h.included
    obtain ⟨cs', hfiles', hchecked', hmerged'⟩ := h'.included
    refine ⟨cs ++ cs', by rw [hfiles', hfiles, List.append_assoc], fun m hm c hc => ?_, fun hok m hm => ?_⟩
    · rcases List.mem_append.mp hc with hc | hc
      · exact hchecked m (h'.later.trans hm) c hc
      · exact hchecked' m hm c hc
    · obtain ⟨hok, hok'⟩ := Bool.and_eq_true_iff.mp hok
      obtain ⟨xs, visits, out, hxs, hexpands, hseen, hnodes, hdecls, hstatements⟩ := hmerged hok m (h'.later.trans hm)
      obtain ⟨ys, visits', out', hys, hexpands', hseen', hnodes', hdecls', hstatements'⟩ := hmerged' hok' m hm
      rw [h.session, hseen] at hexpands'
      rw [h.session] at hnodes'
      refine ⟨xs ++ ys, visits ++ visits', out ++ out', hitems m xs ys hxs hys, hexpands.append hexpands',
        ?_, ?_, ?_, ?_⟩
      · rw [hseen', hseen, after_append]
      · rw [List.map_append, hnodes, hnodes', List.map_append]
      · rw [hdecls', hdecls, List.filterMap_append, List.append_assoc]
      · rw [hstatements', hstatements, List.filterMap_append, List.append_assoc]

end Outcomes

/-! ## One include -/

/-- The includes of a program are in input without a file, or in files that were registered. -/
def Settled (m : SourceManager) (program : Program D S) : Prop :=
  ∀ decl, .include decl ∈ program.declarations → fileIdOf decl.location ≤ m.files.length

/-- What the resolver relies on of the parser: the locations of a program are in its file, and
    a program that comes with errors is withheld. -/
structure Parses (parseFile : ParseFileCallback D S) : Prop where
  located : ∀ file program, (parseFile file).1 = some program →
    ∀ decl, .include decl ∈ program.declarations → fileIdOf decl.location = file.fileId
  honest : ∀ file program, (parseFile file).1 = some program → ∀ d ∈ (parseFile file).2, d.isError = false

/-- Lexing and parsing by default withholds such programs. -/
theorem defaultParseFile_honest {tokenize : SourceFile → Tokens × List Diagnostic}
    {parse : Tokens → Program D S × List Diagnostic} {file : SourceFile} {program : Program D S}
    (h : (defaultParseFile tokenize parse file).1 = some program) :
    ∀ d ∈ (defaultParseFile tokenize parse file).2, d.isError = false := by
  unfold defaultParseFile at h ⊢
  dsimp only at h ⊢
  split at h
  · cases h
  next hlexed =>
    rw [if_neg hlexed]
    split at h
    next hparsed =>
      intro d hd
      rw [List.isEmpty_iff.mp hparsed, List.append_nil] at hd
      have hnone := Bool.eq_false_iff.mpr hlexed
      exact Bool.eq_false_iff.mpr fun herror => hlexed (List.any_eq_true.mpr ⟨d, hd, herror⟩)
    · cases h

/-- A resolver of the includes of whole programs does as it should. -/
def Sound (env : Setting D S) (nested : IncludeResolver.Resolves D S) : Prop :=
  ∀ ⦃program p' : Program D S⦄ ⦃r r' : IncludeResolver⦄ ⦃ok : Bool⦄, Settled r.sourceManager program →
    nested program r = ((ok, p'), r') →
    Outcome env program (fun m => itemsOf env r.inSession m program) r r' ⟨[], []⟩ p' ok

namespace IncludeResolver

variable {r r' : IncludeResolver} {decl : IncludeDeclaration} {canonical : String}

/-- What loading and entering a file does. -/
theorem loadIncludeFile_spec {result : Option SourceFile} (h : r.loadIncludeFile env canonical decl = (result, r'))
    (hnew : r.isAlreadyIncluded env canonical = false) :
    r.sourceManager.Later r'.sourceManager ∧ r'.inSession = r.inSession ∧ r'.includedFiles = r.includedFiles ∧
      Reports r r' result.isSome ∧ ∀ file, result = some file → file ∈ r'.sourceManager.files ∧
        SourceManager.IsTextOf env.fs canonical file ∧
        (r'.enter canonical).seen = insert (keyOf env r.inSession canonical) r.seen := by
  obtain ⟨m, diagnostics, sessionIncluded, includedFiles⟩ := r
  cases sessionIncluded with
  | none =>
    have hloaded : m.isLoaded env.fs canonical = false := hnew
    generalize htry : m.tryLoad env.fs env.maxSourceSize canonical = loaded
    obtain ⟨answer, m'⟩ := loaded
    simp only [loadIncludeFile, Option.isSome_none, Bool.false_eq_true, if_false, htry] at h
    rcases SourceManager.tryLoad_spec htry with ⟨message, rfl, rfl⟩ | ⟨file, rfl, hloads, hpath, hkeys⟩
    · cases h
      exact ⟨.refl, rfl, rfl, reports_error, fun _ hfile => by cases hfile⟩
    · cases h
      refine ⟨hloads.later, rfl, rfl, .refl _, fun _ hfile => ?_⟩
      cases hfile
      refine ⟨hloads.mem, Or.inl hpath, ?_⟩
      ext key
      exact hkeys hloaded key
  | some session =>
    generalize hfresh : m.loadFreshSource env.fs env.maxSourceSize canonical = loaded
    obtain ⟨answer, m'⟩ := loaded
    simp only [loadIncludeFile, Option.isSome_some, if_true, hfresh] at h
    rcases SourceManager.loadFreshSource_spec hfresh with ⟨message, rfl, rfl⟩ | ⟨file, rfl, hloads, htext⟩
    · cases h
      exact ⟨.refl, rfl, rfl, reports_error, fun _ hfile => by cases hfile⟩
    · cases h
      refine ⟨hloads.later, rfl, rfl, .refl _, fun _ hfile => ?_⟩
      cases hfile
      refine ⟨hloads.mem, htext, ?_⟩
      ext key
      exact List.mem_cons

theorem parseIncludeFile_spec {file : SourceFile} {result : Option (Program D S)} (hparses : Parses env.parseFile)
    (h : r.parseIncludeFile env file decl = (result, r')) : r'.sourceManager = r.sourceManager ∧
      r'.sessionIncluded = r.sessionIncluded ∧ r'.includedFiles = r.includedFiles ∧ Reports r r' result.isSome ∧
      result = (env.parseFile file).1 := by
  unfold parseIncludeFile at h
  generalize hparse : env.parseFile file = parsed at h
  obtain ⟨answer, ds⟩ := parsed
  cases answer with
  | none =>
    cases h
    refine ⟨rfl, rfl, rfl, ?_, rfl⟩
    exact ⟨ds ++ _, (List.append_assoc _ _ _), iff_of_false Bool.false_ne_true fun hall =>
      Bool.false_ne_true (hall _ (List.mem_append_right _ List.mem_cons_self)).symm⟩
  | some program =>
    cases h
    refine ⟨rfl, rfl, rfl, ⟨ds, rfl, iff_of_true rfl fun d hd => ?_⟩, rfl⟩
    have hhonest := hparses.honest file program (by rw [hparse]) d
    rw [hparse] at hhonest
    exact hhonest hd

theorem seen_congr (hmanager : r'.sourceManager = r.sourceManager)
    (hsession : r'.sessionIncluded = r.sessionIncluded) :
    r'.seen = r.seen := by
  unfold seen
  rw [hmanager, hsession]

end IncludeResolver

open IncludeResolver

section Process

variable {r r' : IncludeResolver} {decl : IncludeDeclaration} {program p p' : Program D S} {ok : Bool}

/-- Merging a file whose includes were resolved. -/
theorem mergeIncludeAst_spec {nested : Resolves D S} {includedProgram : Program D S} {resolver : IncludeResolver}
    {resolved : Program D S} {success : Bool} (hnested : nested includedProgram r = ((success, resolved), resolver))
    (h : r.mergeIncludeAst nested includedProgram decl p = ((ok, p'), r')) : ok = success ∧
      Reports resolver r' true ∧ r'.sourceManager = resolver.sourceManager ∧
      r'.sessionIncluded = resolver.sessionIncluded ∧ r'.includedFiles = resolver.includedFiles ∧
      (success = true → p' = ⟨p.declarations ++ resolved.declarations, p.statements ++ resolved.statements⟩) := by
  unfold mergeIncludeAst at h
  rw [hnested] at h
  cases success with
  | false =>
    cases h
    exact ⟨rfl, .refl _, rfl, rfl, rfl, fun h => absurd h Bool.false_ne_true⟩
  | true =>
    dsimp only at h
    split at h
    · cases h
      refine ⟨rfl, ⟨_, rfl, iff_of_true rfl fun d hd => ?_⟩, rfl, rfl, rfl, fun _ => rfl⟩
      obtain rfl := List.mem_singleton.mp hd
      rfl
    · cases h
      exact ⟨rfl, .refl _, rfl, rfl, rfl, fun _ => rfl⟩

theorem mapM_include {m : SourceManager} {session : Bool} {canonical : String}
    (h : locate env m decl = .ok canonical) :
    [Declaration.include decl].mapM (itemOf env session m) =
      some [(.edge (keyOf env session canonical) : Item String (Piece D S))] := by
  simp [itemOf, h]

/-- A file was loaded and entered, and its text parsed. -/
structure Entered (env : Setting D S) (r r' : IncludeResolver) (canonical : String) (file : SourceFile) (ok : Bool) :
    Prop where
  later : r.sourceManager.Later r'.sourceManager
  session : r'.inSession = r.inSession
  files : r'.includedFiles = r.includedFiles ++ [canonical]
  seen : r'.seen = insert (keyOf env r.inSession canonical) r.seen
  reports : Reports r r' ok
  mem : file ∈ r'.sourceManager.files
  text : SourceManager.IsTextOf env.fs canonical file

theorem entered_of_load {canonical : String} {file : SourceFile} {result : Option (Program D S)} {r₁ : IncludeResolver}
    (hparses : Parses env.parseFile) (hload : r.loadIncludeFile env canonical decl = (some file, r₁))
    (hnew : r.isAlreadyIncluded env canonical = false)
    (hparse : (r₁.enter canonical).parseIncludeFile env file decl = (result, r')) :
    Entered env r r' canonical file result.isSome ∧ result = (env.parseFile file).1 := by
  obtain ⟨hlater, hsession, hfiles, hreports, hfile⟩ := loadIncludeFile_spec hload hnew
  obtain ⟨hmem, htext, hentered⟩ := hfile file rfl
  obtain ⟨hmanager, hsession', hfiles', hreports', hprogram⟩ := parseIncludeFile_spec hparses hparse
  have hreported : Reports r r' (true && result.isSome) := hreports.trans hreports'
  refine ⟨⟨?_, ?_, ?_, (seen_congr hmanager hsession').trans hentered, hreported, ?_, htext⟩, hprogram⟩
  · rw [hmanager]
    exact hlater
  · rw [inSession, hsession', enter, Option.isSome_map]
    exact hsession
  · rw [hfiles', enter, hfiles]
  · rw [hmanager]
    exact hmem

/-- The includes of a file that was entered are resolved, and it is merged. -/
theorem Entered.outcome {nested : Resolves D S} {canonical : String} {file : SourceFile}
    {includedProgram : Program D S} {r₁ : IncludeResolver} (hentered : Entered env r r₁ canonical file true)
    (hparses : Parses env.parseFile) (hnested : Sound env nested)
    (hlocate : ∀ m, r.sourceManager.Later m → locate env m decl = .ok canonical)
    (hdecl : .include decl ∈ program.declarations) (hnew : keyOf env r.inSession canonical ∉ r.seen)
    (hprogram : (env.parseFile file).1 = some includedProgram)
    (h : r₁.mergeIncludeAst nested includedProgram decl p = ((ok, p'), r')) :
    Outcome env program (fun m => [Declaration.include decl].mapM (itemOf env r.inSession m)) r r' p p' ok := by
  generalize hresolve : nested includedProgram r₁ = resolution
  obtain ⟨⟨success, resolved⟩, r₂⟩ := resolution
  have hsettled : Settled r₁.sourceManager includedProgram := fun decl' hdecl' => by
    rw [hparses.located file includedProgram hprogram decl' hdecl']
    exact SourceManager.fileId_le hentered.mem
  have hout := hnested hsettled hresolve
  obtain ⟨rfl, hreports, hmanager, hsession, hfiles, hp'⟩ := mergeIncludeAst_spec hresolve h
  obtain ⟨cs, hcs, hchecked, hmerged⟩ := hout.included
  have hend : ∀ {m}, r'.sourceManager.Later m → r₂.sourceManager.Later m := fun hm => hmanager ▸ hm
  have hstart : ∀ {m}, r'.sourceManager.Later m → r.sourceManager.Later m := fun hm =>
    (hentered.later.trans hout.later).trans (hend hm)
  refine ⟨?_, ?_, ?_, canonical :: cs, ?_, fun m hm c hc => ?_, fun hok m hm => ?_⟩
  · rw [hmanager]
    exact hentered.later.trans hout.later
  · rw [inSession, hsession]
    exact hout.session.trans hentered.session
  · have hall := (hentered.reports.trans hout.reports).trans hreports
    rwa [Bool.true_and, Bool.and_true] at hall
  · rw [hfiles, hcs, hentered.files, List.append_assoc, List.singleton_append]
  · rcases List.mem_cons.mp hc with rfl | hc
    · exact ⟨decl, Or.inl hdecl, hlocate m (hstart hm)⟩
    · obtain ⟨decl', hdecl', hled⟩ := hchecked m (hend hm) c hc
      refine ⟨decl', Or.inr (hdecl'.elim (fun hdecl' => ?_) id), hled⟩
      exact ⟨file, includedProgram, (hout.later.trans (hend hm)).mem hentered.mem, hprogram, hdecl'⟩
  · obtain ⟨contents, visits, out, hcontents, hexpands, hseen, hnodes, hdecls, hstatements⟩ := hmerged hok m (hend hm)
    rw [hentered.session, hentered.seen] at hexpands
    rw [hentered.session] at hnodes hcontents
    have hcontent : Content env r.inSession m (keyOf env r.inSession canonical) contents :=
      ⟨canonical, file, includedProgram, rfl, (hout.later.trans (hend hm)).mem hentered.mem, hentered.text, hprogram,
        hcontents⟩
    refine ⟨[.edge (keyOf env r.inSession canonical)], ⟨keyOf env r.inSession canonical, contents⟩ :: visits ++ [],
      out ++ [], ?_, .enter hnew hcontent hexpands .done, ?_, ?_, ?_, ?_⟩
    · exact mapM_include (hlocate m (hstart hm))
    · rw [List.append_nil, after_cons, ← hentered.seen, ← hseen]
      exact seen_congr hmanager hsession
    · rw [List.append_nil, List.map_cons, hnodes, List.map_cons]
    · rw [hp' hok, hdecls, List.append_nil, List.nil_append]
    · rw [hp' hok, hstatements, List.append_nil, List.nil_append]

theorem processInclude_outcome {nested : Option (Resolves D S)} (hparses : Parses env.parseFile)
    (hnested : ∀ f, nested = some f → Sound env f) (hsettled : Settled r.sourceManager program)
    (hdecl : .include decl ∈ program.declarations) (h : r.processInclude env nested decl p = ((ok, p'), r')) :
    Outcome env program (fun m => [Declaration.include decl].mapM (itemOf env r.inSession m)) r r' p p' ok := by
  have hlocate : ∀ m, r.sourceManager.Later m → locate env m decl = locate env r.sourceManager decl := fun m hm =>
    locate_later hm (hsettled decl hdecl)
  unfold processInclude resolveIncludeFile at h
  cases hfound : locate env r.sourceManager decl with
  | error rejection =>
    rw [hfound] at h
    cases h
    exact .rejected
  | ok canonical =>
    rw [hfound] at h hlocate
    dsimp only at h
    split at h
    next hseen =>
      -- The file was included before.
      cases h
      refine ⟨.refl, rfl, .refl r, [], (List.append_nil _).symm, fun _ _ _ hc => absurd hc List.not_mem_nil, ?_⟩
      intro _ m hm
      exact ⟨_, [], [], mapM_include (hlocate m hm), .skip (isAlreadyIncluded_iff.mp hseen) .done, after_nil.symm, rfl,
        (List.append_nil _).symm, (List.append_nil _).symm⟩
    next hnew =>
      have hfresh := Bool.eq_false_iff.mpr hnew
      cases nested with
      | none =>
        cases h
        exact .rejected
      | some nested =>
        dsimp only at h
        generalize hload : r.loadIncludeFile env canonical decl = loaded at h
        obtain ⟨result, r₁⟩ := loaded
        cases result with
        | none =>
          cases h
          obtain ⟨hlater, hsession, hfiles, hreports, -⟩ := loadIncludeFile_spec hload hfresh
          exact .failed hlater hsession hreports [] (by rw [hfiles, List.append_nil])
            fun _ _ _ hc => absurd hc List.not_mem_nil
        | some file =>
          dsimp only at h
          generalize hparse : (r₁.enter canonical).parseIncludeFile env file decl = parsed at h
          obtain ⟨result, r₂⟩ := parsed
          obtain ⟨hentered, hprogram⟩ := entered_of_load hparses hload hfresh hparse
          cases result with
          | none =>
            cases h
            refine .failed hentered.later hentered.session hentered.reports [canonical] hentered.files
              fun m hm c hc => ?_
            obtain rfl := List.mem_singleton.mp hc
            exact ⟨decl, Or.inl hdecl, hlocate m (hentered.later.trans hm)⟩
          | some includedProgram =>
            exact hentered.outcome hparses (hnested nested rfl) hlocate hdecl
              (fun hmem => hnew (isAlreadyIncluded_iff.mpr hmem)) hprogram.symm h

theorem resolveDeclarations_outcome {nested : Option (Resolves D S)} (hparses : Parses env.parseFile)
    (hnested : ∀ f, nested = some f → Sound env f) (hsettled : Settled r.sourceManager program)
    {decls : List (Declaration D)} (hdecls : decls ⊆ program.declarations)
    (h : resolveDeclarations env nested decls p r = ((ok, p'), r')) :
    Outcome env program (fun m => decls.mapM (itemOf env r.inSession m)) r r' p p' ok := by
  induction decls generalizing p p' r r' ok with
  | nil =>
    cases h
    exact .refl
  | cons decl decls ih =>
    have hrest : decls ⊆ program.declarations := fun d hd => hdecls (List.mem_cons_of_mem _ hd)
    cases decl with
    | other d =>
      rw [resolveDeclarations] at h
      have hout := ih hsettled hrest h
      obtain ⟨cs, hcs, hchecked, hmerged⟩ := hout.included
      refine ⟨hout.later, hout.session, hout.reports, cs, hcs, hchecked, fun hok m hm => ?_⟩
      obtain ⟨xs, visits, out, hxs, hexpands, hseen, hnodes, hdecls, hstatements⟩ := hmerged hok m hm
      refine ⟨.leaf (.declaration d) :: xs, visits, .declaration d :: out, ?_, .leaf hexpands, hseen, hnodes, ?_,
        hstatements⟩
      · simp [itemOf, hxs]
      rw [hdecls]
      exact List.append_assoc _ [Declaration.other d] _
    | «include» decl =>
      rw [resolveDeclarations] at h
      generalize hprocess : r.processInclude env nested decl p = processed at h
      obtain ⟨⟨first, p₁⟩, r₁⟩ := processed
      generalize hfollow : resolveDeclarations env nested decls p₁ r₁ = followed at h
      obtain ⟨⟨second, p₂⟩, r₂⟩ := followed
      cases h
      have hout := processInclude_outcome hparses hnested hsettled (hdecls List.mem_cons_self) hprocess
      have hsettled₁ : Settled r₁.sourceManager program := fun d hd =>
        (hsettled d hd).trans hout.later.length_le
      rw [hfollow]
      refine hout.trans (ih hsettled₁ hrest hfollow) fun m xs ys hxs hys => ?_
      rw [hout.session] at hys
      rw [← List.singleton_append, List.mapM_append, hxs, hys]
      rfl

theorem resolveIncludes_sound (hparses : Parses env.parseFile) (left : Nat) :
    Sound env (resolveIncludes env left) := by
  have hwhole : ∀ {nested : Option (Resolves D S)}, (∀ f, nested = some f → Sound env f) →
      Sound env fun program => resolveDeclarations env nested program.declarations ⟨[], program.statements⟩ := by
    intro nested hnested program p' r r' ok hsettled h
    have hout := resolveDeclarations_outcome hparses hnested hsettled (List.Subset.refl _) h
    obtain ⟨cs, hcs, hchecked, hmerged⟩ := hout.included
    refine ⟨hout.later, hout.session, hout.reports, cs, hcs, hchecked, fun hok m hm => ?_⟩
    obtain ⟨xs, visits, out, hxs, hexpands, hseen, hnodes, hdecls, hstatements⟩ := hmerged hok m hm
    have hleaves : Expands (Content env r.inSession m) r.seen
        ((program.statements.map Piece.statement).map .leaf) [] (program.statements.map Piece.statement) :=
      expands_leaves _
    rw [List.map_map] at hleaves
    refine ⟨_, visits, program.statements.map Piece.statement ++ out, congrArg (Option.map _) hxs, ?_, hseen, hnodes,
      ?_, ?_⟩
    · refine hleaves.append ?_
      rw [after_nil]
      exact hexpands
    · rw [hdecls, List.filterMap_append, List.filterMap_map]
      simp [Function.comp_def, Piece.declaration?]
    · rw [hstatements, List.filterMap_append, List.filterMap_map]
      simp [Function.comp_def, Piece.statement?]
  induction left with
  | zero => exact hwhole fun f hf => by cases hf
  | succ left ih =>
    refine hwhole fun f hf => ?_
    cases hf
    exact ih

end Process

/-! ## Whole programs -/

section Programs

variable {program p' : Program D S} {r r' : IncludeResolver} {ok : Bool}

/-- What a resolution that succeeds makes of a program. -/
structure Merged (env : Setting D S) (program p' : Program D S) (r r' : IncludeResolver)
    (contents : List (Item String (Piece D S))) (visits : List (Visit String (Piece D S))) (out : List (Piece D S)) :
    Prop where
  items : itemsOf env r.inSession r'.sourceManager program = some contents
  /-- Each file is put in the place of its first include, depth first. -/
  expands : Expands (Content env r.inSession r'.sourceManager) r.seen contents visits out
  declarations : p'.declarations = out.filterMap Piece.declaration?
  statements : p'.statements = out.filterMap Piece.statement?
  /-- The files were read in that order, none twice and none that had been included. -/
  files : r'.includedFiles.map (keyOf env r.inSession) = visits.map Visit.node
  once : (visits.map Visit.node).Nodup ∧ ∀ key ∈ visits.map Visit.node, key ∉ r.seen
  seen : r'.seen = after r.seen visits
  /-- They are all that the program reaches. -/
  reached (key : String) : key ∈ visits.map Visit.node ↔
    ∃ first, .edge first ∈ contents ∧ first ∉ r.seen ∧ Relation.ReflTransGen (Leads r.seen visits) first key
  /-- Everything in them is merged, once. -/
  complete : out.Perm (leaves contents ++ visits.flatMap fun v => leaves v.content)

theorem resolve_outcome (hparses : Parses env.parseFile) (hsettled : Settled r.sourceManager program)
    (h : resolve env program r = ((ok, p'), r')) :
    Outcome env program (fun m => itemsOf env r.inSession m program)
      { r with diagnostics := [], includedFiles := [] } r' ⟨[], []⟩ p' ok :=
  resolveIncludes_sound hparses maxIncludeDepth (r := { r with diagnostics := [], includedFiles := [] }) hsettled h

/-- A program whose includes are all resolved is its depth-first expansion: every file that it
    reaches is merged once, in the place of its first include. -/
theorem includes_merged (hparses : Parses env.parseFile) (hsettled : Settled r.sourceManager program)
    (h : resolve env program r = ((true, p'), r')) :
    ∃ contents visits out, Merged env program p' r r' contents visits out := by
  obtain ⟨cs, hcs, -, hmerged⟩ := (resolve_outcome hparses hsettled h).included
  obtain ⟨contents, visits, out, hcontents, hexpands, hseen, hnodes, hdecls, hstatements⟩ := hmerged rfl _ .refl
  rw [List.nil_append] at hcs hdecls hstatements
  refine ⟨contents, visits, out, hcontents, hexpands, hdecls, hstatements, ?_, hexpands.nodup, hseen,
    fun _ => hexpands.mem_iff, hexpands.perm⟩
  rw [hcs]
  exact hnodes.symm

end Programs

/-! ## A program that includes itself and another file -/

def inFile (fileId : Int32) : SourceLocation := ⟨fileId, 1, 1, 1, 1⟩

/-- The directory `/p` holds `main.luma` and `part.luma`. -/
def smallFileSystem : FileSystem where
  pathExists p := p.names = ["p", "main.luma"] || p.names = ["p", "part.luma"]
  isDirectory _ := false
  isSymlink _ := false
  weaklyCanonical p := some p
  currentPath := none
  contents p := if p.names = ["p", "part.luma"] then .text [112] else .cannotOpen

/-- `part.luma` includes itself and `main.luma`. -/
def partProgram : Program Nat Nat where
  declarations := [.include ⟨"part.luma", inFile 2⟩, .other 2, .include ⟨"main.luma", inFile 2⟩]
  statements := [⟨20, inFile 2⟩]

def smallSetting : Setting Nat Nat where
  fs := smallFileSystem
  lumaPath := none
  maxSourceSize := 1
  parseFile file := (if file.fileId = 2 then some partProgram else none, [])

def mainProgram : Program Nat Nat where
  declarations := [.other 1, .include ⟨"part.luma", inFile 1⟩, .other 3]
  statements := [⟨10, inFile 1⟩]

/-- The resolver once `main.luma` has been loaded. -/
def smallResolver : IncludeResolver where
  sourceManager := SourceManager.empty.register "/p/main.luma" [109] false
  diagnostics := []
  sessionIncluded := none
  includedFiles := []

theorem smallSetting_parses : Parses smallSetting.parseFile where
  located file program h decl hdecl := by
    dsimp only [smallSetting] at h
    split at h
    next hfile =>
      cases h
      rw [hfile]
      simp only [partProgram, List.mem_cons, Declaration.include.injEq, reduceCtorEq, List.not_mem_nil, or_false,
        false_or] at hdecl
      rcases hdecl with rfl | rfl <;> decide
    · cases h
  honest _ _ _ d hd := absurd hd List.not_mem_nil

theorem mainProgram_settled : Settled smallResolver.sourceManager mainProgram := by
  intro decl hdecl
  simp only [mainProgram, List.mem_cons, Declaration.include.injEq, reduceCtorEq, List.not_mem_nil, or_false,
    false_or] at hdecl
  subst hdecl
  decide

theorem mainProgram_resolves : (resolve smallSetting mainProgram smallResolver).1 =
    (true, ⟨[.other 1, .other 2, .other 3], [⟨10, inFile 1⟩, ⟨20, inFile 2⟩]⟩) := by
  decide +kernel

theorem mainProgram_resolution : resolve smallSetting mainProgram smallResolver =
    ((true, ⟨[.other 1, .other 2, .other 3], [⟨10, inFile 1⟩, ⟨20, inFile 2⟩]⟩),
      (resolve smallSetting mainProgram smallResolver).2) := by
  rw [← mainProgram_resolves]

/-- The second include of `part.luma` and that of `main.luma` add nothing. -/
theorem includes_merged_mainProgram : ∃ contents visits out, Merged smallSetting mainProgram
    ⟨[.other 1, .other 2, .other 3], [⟨10, inFile 1⟩, ⟨20, inFile 2⟩]⟩ smallResolver
    (resolve smallSetting mainProgram smallResolver).2 contents visits out :=
  includes_merged smallSetting_parses mainProgram_settled mainProgram_resolution

end Luma.Include
