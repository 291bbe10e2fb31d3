-- SUMMARY: How the checker resolves a written type to a static type.
import Luma.Library.OrderedMap
import Luma.Syntax.Ast
import Luma.Types.Pattern

/-! # Type Resolution

`resolveType` turns an annotation into a static type. An alias is looked up before anything
else, then the built-in names, then the declarations, and last the type parameters in scope. -/

namespace Luma

open Codec

open TypePattern (isQualifiedName isWithinNamespace makeQualified owningNamespace)

/-- What resolving a type reads: the symbol tables, by the names things are registered under,
    and the place the type stands in. A record, choice or interface is given by the name it
    is declared with. -/
structure ResolutionContext where
  typeAliases : Bytes → Option TypeAnnotation
  aliasParams : Bytes → List Bytes
  records : Bytes → Option Bytes
  choices : Bytes → Option Bytes
  interfaces : Bytes → Option Bytes
  internalMembers : Bytes → Bool
  currentNamespace : Bytes
  bindings : List (Bytes × TypeInfo)
  resolvingAliases : List Bytes

namespace ResolutionContext

/-- Nothing is declared. -/
def empty : ResolutionContext where
  typeAliases _ := none
  aliasParams _ := []
  records _ := none
  choices _ := none
  interfaces _ := none
  internalMembers _ := false
  currentNamespace := []
  bindings := []
  resolvingAliases := []

variable (ctx : ResolutionContext)

def isInternalAccessDenied (name : Bytes) : Bool :=
  ctx.internalMembers name ∧ owningNamespace name ≠ [] ∧
    ¬ isWithinNamespace ctx.currentNamespace (owningNamespace name)

end ResolutionContext

namespace TypeInfo

def primitiveTypes : List (Bytes × TypeKind) :=
  [(bytes "boolean", .boolean), (bytes "integer", .integer), (bytes "number", .number),
    (bytes "string", .string), (bytes "none", .none), (bytes "void", .void),
    (bytes "socket", .socket), (bytes "decimal", .decimal)]

def wrapperTypes : List (Bytes × TypeKind) :=
  [(bytes "array", .array), (bytes "optional", .optional), (bytes "task", .task),
    (bytes "channel", .channel), (bytes "reference", .reference)]

/-- The built-in types that are kept as named records. -/
def namedRecordTypes : List Bytes :=
  [bytes "xml", bytes "set", bytes "key_value_store", bytes "queue", bytes "stack"]

end TypeInfo

namespace ResolutionContext

open TypeInfo

section Layer

variable (ctx : ResolutionContext) (resolve : TypeAnnotation → TypeInfo)

/-- A declaration registered in a map. A choice goes by its key in the map, the other kinds
    by the name in the declaration. -/
def resolveUserNamed (map : Bytes → Option Bytes) (kind : TypeKind) (name : Bytes)
    (typeParams : List TypeAnnotation) : Option TypeInfo :=
  match map name with
  | none => none
  | some declared =>
    if ctx.isInternalAccessDenied name then some (make .unknown)
    else
      let identity := if kind = .choice then name else declared
      if typeParams = [] then some (makeNamed kind identity)
      else some (makeGeneric kind identity (typeParams.map resolve))

/-- Any name that is not an alias. -/
def resolveNamedType (name : Bytes) (typeParams : List TypeAnnotation) : TypeInfo :=
  match OrderedMap.lookup name primitiveTypes with
  | some kind => make kind
  | none =>
    if name = bytes "dictionary" then
      match typeParams with
      | _ :: value :: _ => makeDict (resolve value)
      | [value] => makeDict (resolve value)
      | [] => makeDict (make .stdlibAny)
    else if name = bytes "result" then
      match typeParams with
      | value :: error :: _ => makeResult (resolve value) (resolve error)
      | [value] => makeResult (resolve value) (make .string)
      | [] => makeResult (make .stdlibAny) (make .stdlibAny)
    else
      match OrderedMap.lookup name wrapperTypes with
      | some kind =>
        match typeParams with
        | inner :: _ => makeSingleInner kind (resolve inner)
        | [] => makeSingleInner kind (make .stdlibAny)
      | none =>
        if name ∈ namedRecordTypes then
          if typeParams = [] then makeNamed .record name
          else makeGeneric .record name (typeParams.map resolve)
        else
          match ctx.resolveUserNamed resolve ctx.records .record name typeParams with
          | some t => t
          | none =>
            match ctx.resolveUserNamed resolve ctx.choices .choice name typeParams with
            | some t => t
            | none =>
              match ctx.resolveUserNamed resolve ctx.interfaces .interface name typeParams with
              | some t => t
              | none =>
                match OrderedMap.lookup name ctx.bindings with
                | some t => t
                | none => makeNamed .unknown name

/-- The context of the type an alias stands for: the alias is being resolved, and its
    parameters stand for the arguments. -/
def insideAlias (name : Bytes) (typeParams : List TypeAnnotation) : ResolutionContext :=
  { ctx with
    resolvingAliases := name :: ctx.resolvingAliases
    bindings := ((ctx.aliasParams name).zip (typeParams.map resolve)).reverse ++ ctx.bindings }

end Layer

/-- Resolve an annotation with `levels` levels of nesting left. Beyond them, in an alias that
    refers to itself, and where a name is internal elsewhere, an error is reported and the
    type is unknown. -/
def resolveTypeAt : (levels : Nat) → ResolutionContext → TypeAnnotation → TypeInfo
  | 0, _, _ => make .unknown
  | levels + 1, ctx, .tuple elementTypes _ _ =>
    makeTuple (elementTypes.map (resolveTypeAt levels ctx))
  | levels + 1, ctx, .function paramTypes returnType _ _ =>
    .mk .func [] (paramTypes.map (resolveTypeAt levels ctx))
      (some ((returnType.map (resolveTypeAt levels ctx)).getD (make .void)))
  | levels + 1, ctx, .plain name typeParams isUnique isBorrow =>
    match ctx.typeAliases name with
    | some target =>
      if ctx.isInternalAccessDenied name then make .unknown
      else if name ∈ ctx.resolvingAliases then make .unknown
      else
        let marked := { ctx with resolvingAliases := name :: ctx.resolvingAliases }
        resolveTypeAt levels (ctx.insideAlias (resolveTypeAt levels marked) name typeParams) target
    | none =>
      let resolved := ctx.resolveNamedType (resolveTypeAt levels ctx) name typeParams
      -- A bare name may be a sibling in the namespace, registered under its qualified name.
      if resolved.kind = .unknown ∧ resolved.name = name ∧ ctx.currentNamespace ≠ [] ∧
          ¬ isQualifiedName name ∧ OrderedMap.lookup name ctx.bindings = none then
        let member := resolveTypeAt levels ctx
          (.plain (makeQualified ctx.currentNamespace name) typeParams isUnique isBorrow)
        if member.kind ≠ .unknown then member else resolved
      else resolved

def resolveType (maxParseDepth : Nat) (ctx : ResolutionContext) (ann : TypeAnnotation) :
    TypeInfo :=
  resolveTypeAt maxParseDepth ctx ann

end ResolutionContext

end Luma
