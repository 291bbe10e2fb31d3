-- SUMMARY: Paths, the file system, and the sources a program is loaded from.
import Luma.Bytecode.Chunk
import Mathlib.Logic.Function.Basic

/-! # Sources

A source manager loads each file once, under its normalised path, and numbers the files in
the order it loads them. What the file system answers does not change while a program is loaded. -/

namespace Luma.Include

open Codec

/-! ## Paths -/

/-- The parts of a text between separators. -/
def splitText (separator : Char) (text : String) : List String :=
  (text.toList.splitOn separator).map String.ofList

/-- A POSIX path. A path that ends in a separator has an empty last name. -/
structure Path where
  rooted : Bool
  names : List String
  deriving DecidableEq, Repr

namespace Path

def empty : Path := ⟨false, []⟩

/-- What iterating over a path yields. -/
def components (p : Path) : List String := if p.rooted then "/" :: p.names else p.names

def isEmpty (p : Path) : Bool := !p.rooted && p.names.isEmpty

def isAbsolute (p : Path) : Bool := p.rooted

def hasRootPath (p : Path) : Bool := p.rooted

def join (p q : Path) : Path :=
  if q.rooted then q else ⟨p.rooted, (if p.names.getLast? = some "" then p.names.dropLast else p.names) ++ q.names⟩

def parentPath (p : Path) : Path := ⟨p.rooted, p.names.dropLast⟩

/-- Empty names between separators are dropped; every text is a path. -/
def tryFromUtf8 (text : String) : Option Path :=
  match splitText '/' text with
  | [] => some empty
  | [name] => some ⟨false, if name = "" then [] else [name]⟩
  | first :: rest =>
    let inner := rest.dropLast.filter (· ≠ "")
    let last := rest.getLast?.toList
    let names := if first = "" then inner ++ last else first :: inner ++ last
    some ⟨first = "", if first = "" && inner.isEmpty then last.filter (· ≠ "") else names⟩

def toUtf8 (p : Path) : String := (if p.rooted then "/" else "") ++ "/".intercalate p.names

end Path

def hasDirectoryTraversal (path : Path) : Bool := path.components.any fun name => name == ".." || name == "."

/-- The path stays within the root only if the root is a prefix of it. -/
def canonicalEscapesRoot (path root : Path) : Bool := !root.components.isPrefixOf path.components

/-! ## The file system -/

/-- What opening a file and asking for its size yields. -/
inductive FileContents where
  | cannotOpen
  | cannotRead
  | text (bytes : Bytes)

/-- The answers of the file system; `none` where it reports an error. -/
structure FileSystem where
  pathExists : Path → Bool
  isDirectory : Path → Bool
  isSymlink : Path → Bool
  weaklyCanonical : Path → Option Path
  currentPath : Option Path
  contents : Path → FileContents

namespace FileSystem

variable (fs : FileSystem)

def canonicalizeOr (path fallback : Path) : Path := (fs.weaklyCanonical path).getD fallback

/-- Any symbolic link from a path up to the root, the names given in reverse. -/
def linkIn (rooted : Bool) : List String → Bool
  | [] => false
  | name :: names => fs.isSymlink ⟨rooted, (name :: names).reverse⟩ || linkIn rooted names

def isSymlinkOrContainsSymlinks (path : Path) : Bool := fs.linkIn path.rooted path.names.reverse

/-- The key of a file: the text itself where the file system cannot resolve it. -/
def normalizePath (path : String) : String :=
  match Path.tryFromUtf8 path with
  | none => path
  | some p =>
    match fs.weaklyCanonical p with
    | none => path
    | some canonical => canonical.toUtf8

end FileSystem

/-! ## The source manager -/

structure SourceFile where
  fileId : Nat
  path : String
  text : Bytes
  isVirtual : Bool := false

/-- Files are numbered from one; the number zero is for input that has no file. -/
structure SourceManager where
  files : List SourceFile
  pathToId : String → Option Nat
  numbered : ∀ i (h : i < files.length), (files.get ⟨i, h⟩).fileId = i + 1
  registered : ∀ key id, pathToId key = some id → 0 < id ∧ (files[id - 1]?).map SourceFile.path = some key

namespace SourceManager

def empty : SourceManager where
  files := []
  pathToId := fun _ => none
  numbered := fun _ h => absurd h (Nat.not_lt_zero _)
  registered := fun _ _ h => by cases h

variable (fs : FileSystem) (maxSourceSize : Nat) (m : SourceManager)

def getFile (id : Nat) : Option SourceFile := if id < 1 then none else m.files[id - 1]?

/-- Register a text as the next file. -/
def register (key : String) (text : Bytes) (isVirtual : Bool) : SourceManager where
  files := m.files ++ [⟨m.files.length + 1, key, text, isVirtual⟩]
  pathToId := Function.update m.pathToId key (some (m.files.length + 1))
  numbered := fun i h => by
    rw [List.get_eq_getElem]
    by_cases hi : i < m.files.length
    · rw [List.getElem_append_left hi]
      exact m.numbered i hi
    · have heq : i = m.files.length := by
        rw [List.length_append, List.length_singleton] at h
        omega
      subst heq
      rw [List.getElem_append_right (Nat.le_refl _)]
      simp
  registered := fun key' id h => by
    by_cases hkey : key' = key
    · rw [hkey, Function.update_self] at h
      cases h
      refine ⟨Nat.succ_pos _, ?_⟩
      rw [Nat.add_sub_cancel, List.getElem?_append_right (Nat.le_refl _), hkey]
      simp
    · rw [Function.update_of_ne hkey] at h
      obtain ⟨hpos, hfile⟩ := m.registered key' id h
      obtain ⟨file, hget, -⟩ := Option.map_eq_some_iff.mp hfile
      rw [List.getElem?_append_left (List.getElem?_eq_some_iff.mp hget).1]
      exact ⟨hpos, hfile⟩

/-- The file that was registered last. -/
def registeredFile (key : String) (text : Bytes) (isVirtual : Bool) : SourceFile :=
  ⟨m.files.length + 1, key, text, isVirtual⟩

/-- The file of a key, if there is one. -/
def lookup (key : String) : Option SourceFile := (m.pathToId key).bind m.getFile

def isLoaded (path : String) : Bool := (m.pathToId (fs.normalizePath path)).isSome

def stripUtf8Bom : Bytes → Bytes
  | 0xEF :: 0xBB :: 0xBF :: text => text
  | text => text

def tryLoad (path : String) : Except String SourceFile × SourceManager :=
  let normalized := fs.normalizePath path
  match m.lookup normalized with
  | some file => (.ok file, m)
  | none =>
    match Path.tryFromUtf8 normalized with
    | none => (.error s!"cannot open file '{path}': path is not valid UTF-8", m)
    | some fsPath =>
      match fs.contents fsPath with
      | .cannotOpen => (.error s!"cannot open file '{path}'", m)
      | .cannotRead => (.error s!"cannot read file '{path}'", m)
      | .text bytes =>
        if maxSourceSize < bytes.length then
          (.error s!"source file '{path}' is too large ({bytes.length} bytes, max {maxSourceSize} bytes)", m)
        else
          let text := stripUtf8Bom bytes
          (.ok (m.registeredFile normalized text false), m.register normalized text false)

/-- A text that is in no file, under a name that is taken as it is. -/
def loadVirtual (name : String) (text : Bytes) : SourceFile × SourceManager :=
  match m.lookup name with
  | some file => (file, m)
  | none => (m.registeredFile name text true, m.register name text true)

/-- A file that was loaded before is read again, as a text of its own. -/
def loadFreshSource (path : String) : Except String SourceFile × SourceManager :=
  if !m.isLoaded fs path then m.tryLoad fs maxSourceSize path
  else
    match (SourceManager.empty.tryLoad fs maxSourceSize path).1 with
    | .error message => (.error message, m)
    | .ok fresh =>
      let (file, m) := m.loadVirtual s!"{fresh.path} (reload {m.files.length + 1})" fresh.text
      (.ok file, m)

end SourceManager

end Luma.Include
