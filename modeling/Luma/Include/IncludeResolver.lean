-- SUMMARY: The include resolver: finding, loading and merging the files a program includes.
import Luma.Include.SourceManager

/-! # The Include Resolver

An include declaration is replaced by the declarations of the file it names, the first time
the file is included. A path is checked before its file is opened. Lexing and parsing are a
callback; `D` and `S` are what the other declarations and the statements are. -/

namespace Luma.Include

/-! ## Programs and diagnostics -/

structure IncludeDeclaration where
  path : String
  location : SourceLocation
  deriving DecidableEq

inductive Declaration (D : Type) where
  | include (decl : IncludeDeclaration)
  | other (decl : D)
  deriving DecidableEq

structure Statement (S : Type) where
  node : S
  location : SourceLocation
  deriving DecidableEq

structure Program (D S : Type) where
  declarations : List (Declaration D)
  statements : List (Statement S)
  deriving DecidableEq

/-- The file that a location is in. -/
def fileIdOf (location : SourceLocation) : Nat := location.fileId.toInt.toNat

inductive Severity where
  | error | warning | hint | info
  deriving DecidableEq

inductive DiagnosticCategory where
  | compile | runtime | syntax_ | type | warning
  deriving DecidableEq

structure Diagnostic where
  severity : Severity
  category : DiagnosticCategory
  message : String
  location : SourceLocation
  hint : Option String

def Diagnostic.isError (d : Diagnostic) : Bool := d.severity = .error

abbrev ParseFileCallback (D S : Type) := SourceFile → Option (Program D S) × List Diagnostic

variable {D S Tokens : Type}

/-- Lex and parse. Errors of either leave no program. -/
def defaultParseFile (tokenize : SourceFile → Tokens × List Diagnostic)
    (parse : Tokens → Program D S × List Diagnostic) : ParseFileCallback D S := fun file =>
  let (tokens, lexerDiagnostics) := tokenize file
  if lexerDiagnostics.any Diagnostic.isError then (none, lexerDiagnostics)
  else
    let (program, errors) := parse tokens
    (if errors.isEmpty then some program else none, lexerDiagnostics ++ errors)

/-! ## The resolver -/

def maxIncludeDepth : Nat := 64

/-- What does not change while includes are resolved. `lumaPath` is the variable LUMA_PATH. -/
structure Setting (D S : Type) where
  fs : FileSystem
  lumaPath : Option String
  maxSourceSize : Nat
  parseFile : ParseFileCallback D S

/-- The state of the resolver. `sessionIncluded` is for one input of a session, and holds the
    files that count as included there. -/
structure IncludeResolver where
  sourceManager : SourceManager
  diagnostics : List Diagnostic
  sessionIncluded : Option (List String)
  includedFiles : List String

section

variable (env : Setting D S)

/-- The directories of LUMA_PATH that exist. -/
def Setting.searchPaths : List Path :=
  match env.lumaPath with
  | none => []
  | some value => (splitText ':' value).filterMap fun token =>
      if token = "" then none
      else
        match Path.tryFromUtf8 token with
        | none => none
        | some dir => if env.fs.isDirectory dir then some (env.fs.canonicalizeOr dir dir) else none

namespace IncludeResolver

variable (r : IncludeResolver)

def emit (severity : Severity) (message : String) (location : SourceLocation) (hint : String) : IncludeResolver :=
  { r with diagnostics := r.diagnostics ++
      [⟨severity, .compile, message, location, if hint = "" then none else some hint⟩] }

def isAlreadyIncluded (canonical : String) : Bool :=
  match r.sessionIncluded with
  | some included => included.contains canonical
  | none => r.sourceManager.isLoaded env.fs canonical

end IncludeResolver

/-- The directory that relative includes of a file resolve against; none for input that is in
    no file, and empty where it cannot be determined. -/
def includingDirectory (m : SourceManager) (fileId : Nat) : Option Path :=
  match m.getFile fileId with
  | none => none
  | some file =>
    if file.path = "" then none
    else if file.isVirtual && ['<'].isPrefixOf file.path.toList then none
    else
      match Path.tryFromUtf8 file.path with
      | none => some .empty
      | some filePath =>
        if filePath.parentPath.isEmpty then some (env.fs.currentPath.getD .empty) else some filePath.parentPath

/-- A candidate that exists. -/
def tryDirectory (includePath dir : Path) : Option Path :=
  if env.fs.pathExists (dir.join includePath) then some (dir.join includePath) else none

def resolvePath (m : SourceManager) (includePath : Path) (fileId : Nat) : Option Path :=
  let base := match includingDirectory env m fileId with
    | some dir => tryDirectory env includePath dir
    | none => env.fs.currentPath.bind (tryDirectory env includePath)
  base.or (env.searchPaths.findSome? (tryDirectory env includePath))

def isWithinAllowedDirectories (canonicalPath baseDir : Path) : Bool :=
  !canonicalEscapesRoot canonicalPath baseDir || env.searchPaths.any fun dir => !canonicalEscapesRoot canonicalPath dir

/-- The error and the hint of an include that is rejected. -/
abbrev Rejection := String × String

def rejectTraversal (includePath : Path) (decl : IncludeDeclaration) : Option Rejection :=
  if hasDirectoryTraversal includePath then
    some (s!"include rejected: '{decl.path}' contains directory traversal",
      "use paths relative to the current file without '..'")
  else none

def rejectUnanchoredAbsolute (m : SourceManager) (includePath : Path) (decl : IncludeDeclaration) : Option Rejection :=
  if (includingDirectory env m (fileIdOf decl.location)).isSome ||
      (!includePath.isAbsolute && !includePath.hasRootPath) then none
  else some (s!"include rejected: '{decl.path}' is an absolute path",
    "includes from the REPL or standard input must use relative paths")

def rejectSymlinks (resolvedPath : Path) (decl : IncludeDeclaration) : Option Rejection :=
  if env.fs.isSymlinkOrContainsSymlinks resolvedPath then
    some (s!"include rejected: '{decl.path}' contains a symbolic link in its path chain",
      "symbolic links are not allowed in include paths for security")
  else none

def enforceAllowedRoot (m : SourceManager) (canonicalPath : Path) (decl : IncludeDeclaration) : Option Rejection :=
  match includingDirectory env m (fileIdOf decl.location) with
  | none => none
  | some includingDir =>
    let baseDir := env.fs.canonicalizeOr includingDir .empty
    if baseDir.isEmpty then
      some (s!"include rejected: cannot resolve the directory of the file including '{decl.path}'",
        "the including file's directory must exist and be accessible")
    else if isWithinAllowedDirectories env canonicalPath baseDir then none
    else some (s!"include rejected: '{decl.path}' resolves outside the allowed directory tree",
      "include paths must resolve within the source directory or LUMA_PATH directories")

/-- The canonical path of the file that an include names. -/
def locate (m : SourceManager) (decl : IncludeDeclaration) : Except Rejection String :=
  match Path.tryFromUtf8 decl.path with
  | none => .error (s!"include rejected: '{decl.path}' is not a valid UTF-8 path", "save the source file as UTF-8")
  | some includePath =>
    match (rejectTraversal includePath decl).or (rejectUnanchoredAbsolute env m includePath decl) with
    | some rejection => .error rejection
    | none =>
      match resolvePath env m includePath (fileIdOf decl.location) with
      | none => .error (s!"cannot load included file '{decl.path}': file not found",
          if (includingDirectory env m (fileIdOf decl.location)).isSome then
            "searched the including file's directory and LUMA_PATH"
          else "searched the current working directory and LUMA_PATH")
      | some resolvedPath =>
        let canonicalPath := env.fs.canonicalizeOr resolvedPath resolvedPath
        match (rejectSymlinks env resolvedPath decl).or (enforceAllowedRoot env m canonicalPath decl) with
        | some rejection => .error rejection
        | none => .ok canonicalPath.toUtf8

namespace IncludeResolver

def resolveIncludeFile (decl : IncludeDeclaration) (r : IncludeResolver) : Option String × IncludeResolver :=
  match locate env r.sourceManager decl with
  | .ok canonical => (some canonical, r)
  | .error (message, hint) => (none, r.emit .error message decl.location hint)

/-- In a session a file that was loaded before is read again. -/
def loadIncludeFile (canonical : String) (decl : IncludeDeclaration) (r : IncludeResolver) :
    Option SourceFile × IncludeResolver :=
  let (result, sourceManager) := if r.sessionIncluded.isSome
    then r.sourceManager.loadFreshSource env.fs env.maxSourceSize canonical
    else r.sourceManager.tryLoad env.fs env.maxSourceSize canonical
  let r := { r with sourceManager }
  match result with
  | .ok file => (some file, r)
  | .error message =>
    (none, r.emit .error s!"cannot load included file '{decl.path}': {message}" decl.location "")

/-- Record a file as included. -/
def enter (canonical : String) (r : IncludeResolver) : IncludeResolver :=
  { r with
    sessionIncluded := r.sessionIncluded.map (canonical :: ·)
    includedFiles := r.includedFiles ++ [canonical] }

def parseIncludeFile (file : SourceFile) (decl : IncludeDeclaration) (r : IncludeResolver) :
    Option (Program D S) × IncludeResolver :=
  let (result, parseDiagnostics) := env.parseFile file
  let r := { r with diagnostics := r.diagnostics ++ parseDiagnostics }
  match result with
  | some program => (some program, r)
  | none => (none, r.emit .error s!"errors in included file '{decl.path}'" decl.location
      "fix the errors in the included file")

/-- How the includes of a program are resolved: whether all of them were, and the program. -/
abbrev Resolves (D S : Type) := Program D S → IncludeResolver → (Bool × Program D S) × IncludeResolver

/-- Append the declarations and statements of an included file to those of its includer. -/
def mergeIncludeAst (nested : Resolves D S) (includedProgram : Program D S) (decl : IncludeDeclaration)
    (parent : Program D S) (r : IncludeResolver) : (Bool × Program D S) × IncludeResolver :=
  match nested includedProgram r with
  | ((false, _), r) => ((false, parent), r)
  | ((true, resolved), r) =>
    let r := match includedProgram.statements, resolved.statements with
      | _ :: _, first :: _ => r.emit .warning
          s!"included file '{decl.path}' contains top-level statements that will execute before @main"
          first.location ""
      | _, _ => r
    ((true, ⟨parent.declarations ++ resolved.declarations, parent.statements ++ resolved.statements⟩), r)

/-- Resolve one include. `nested` is none at the depth limit. -/
def processInclude (nested : Option (Resolves D S)) (decl : IncludeDeclaration) (parent : Program D S)
    (r : IncludeResolver) : (Bool × Program D S) × IncludeResolver :=
  match r.resolveIncludeFile env decl with
  | (none, r) => ((false, parent), r)
  | (some canonical, r) =>
    if r.isAlreadyIncluded env canonical then ((true, parent), r)
    else
      match nested with
      | none => ((false, parent), r.emit .error
          s!"include depth limit exceeded ({maxIncludeDepth}) while including '{decl.path}'" decl.location
          "reduce the depth of nested includes")
      | some nested =>
        match r.loadIncludeFile env canonical decl with
        | (none, r) => ((false, parent), r)
        | (some file, r) =>
          match (r.enter canonical).parseIncludeFile env file decl with
          | (none, r) => ((false, parent), r)
          | (some includedProgram, r) => r.mergeIncludeAst nested includedProgram decl parent

/-- The declarations one after the other; `parent` has those before them. -/
def resolveDeclarations (nested : Option (Resolves D S)) :
    List (Declaration D) → Program D S → IncludeResolver → (Bool × Program D S) × IncludeResolver
  | [], parent, r => ((true, parent), r)
  | .other decl :: rest, parent, r =>
    resolveDeclarations nested rest { parent with declarations := parent.declarations ++ [.other decl] } r
  | .include decl :: rest, parent, r =>
    let ((ok, parent), r) := r.processInclude env nested decl parent
    let ((success, parent), r) := resolveDeclarations nested rest parent r
    ((ok && success, parent), r)

/-- `left` is how deep includes may still nest. -/
def resolveIncludes : (left : Nat) → Resolves D S
  | 0 => fun program => resolveDeclarations env none program.declarations ⟨[], program.statements⟩
  | left + 1 => fun program =>
    resolveDeclarations env (some (resolveIncludes left)) program.declarations ⟨[], program.statements⟩

def resolve (program : Program D S) (r : IncludeResolver) : (Bool × Program D S) × IncludeResolver :=
  resolveIncludes env maxIncludeDepth program { r with diagnostics := [], includedFiles := [] }

end IncludeResolver

end

end Luma.Include
