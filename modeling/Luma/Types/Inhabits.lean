-- SUMMARY: Which runtime values a static type describes.
import Luma.Library.OrderedMap
import Luma.Types.TypeInfo
import Luma.Value.Value

/-! # Inhabitants

`Inhabits W t v` says that the value `v` is one the static type `t` describes. An optional
has no representation of its own: it is described by `none` and by every value of the
wrapped type. A task is described by what it delivers, a reference by what it holds. -/

namespace Luma

open Codec

/-- What a value refers to beyond itself: what a task delivers, what a reference holds, which
    types a closure has, and the declared components of records, interfaces and choices, with
    the type arguments filled in. -/
structure World where
  outcome : TaskIdentity → Option Value
  referent : Nat → Value
  closureHas : Nat → TypeInfo → Prop
  recordFields (name typeName : Bytes) (args : List TypeInfo) : Option (List (Bytes × TypeInfo))
  interfaceFields (name : Bytes) (args : List TypeInfo) : Option (List (Bytes × TypeInfo))
  variantFields (name typeName variant : Bytes) (args : List TypeInfo) : Option (List TypeInfo)

/-- No task has delivered anything, references hold `none`, there are no closures, and nothing
    is declared. -/
def World.empty : World where
  outcome _ := none
  referent _ := .null
  closureHas _ _ := False
  recordFields _ _ _ := none
  interfaceFields _ _ := none
  variantFields _ _ _ _ := none

/-- The collections that the type checker keeps as named record types. -/
inductive CollectionKind where
  | set | queue | stack
  deriving DecidableEq, Repr

namespace CollectionKind

def name : CollectionKind → Bytes
  | .set => bytes "set"
  | .queue => bytes "queue"
  | .stack => bytes "stack"

/-- The collection value with the given elements. -/
def value : CollectionKind → List Value → Value
  | .set => .set
  | .queue => .queue
  | .stack => .stack

theorem name_injective {c d : CollectionKind} (h : c.name = d.name) : c = d := by
  revert h
  cases c <;> cases d <;> decide

theorem value_injective {c d : CollectionKind} {vs ws : List Value}
    (h : c.value vs = d.value ws) : c = d ∧ vs = ws := by
  cases c <;> cases d <;> simp_all [value]

end CollectionKind

namespace TypeInfo

/-- The static type of a collection. -/
def makeCollection (c : CollectionKind) (element : TypeInfo) : TypeInfo :=
  makeGeneric .record c.name [element]

@[simp] theorem kind_makeCollection {c : CollectionKind} {t : TypeInfo} :
    (makeCollection c t).kind = .record := rfl

/-- The values a static type describes. -/
inductive Inhabits (W : World) : TypeInfo → Value → Prop where
  | boolean (b : Bool) : Inhabits W (make .boolean) (.bool b)
  | integer (n : Int64) : Inhabits W (make .integer) (.integer n)
  | number (x : Binary64) : Inhabits W (make .number) (.number x)
  | string (s : Bytes) : Inhabits W (make .string) (.string s)
  | decimal (d : Decimal) : Inhabits W (make .decimal) (.decimal d)
  | socket (address : Nat) : Inhabits W (make .socket) (.socket address)
  | range (start stop : Int64) (inclusive : Bool) :
      Inhabits W (make .range) (.range start stop inclusive)
  | any (v : Value) : Inhabits W (make .stdlibAny) v
  | none : Inhabits W (make .none) .null
  | void : Inhabits W (make .void) .null
  | missing {t : TypeInfo} : Inhabits W (makeOptional t) .null
  | present {t : TypeInfo} {v : Value} (h : Inhabits W t v) : Inhabits W (makeOptional t) v
  | array {t : TypeInfo} {vs : List Value} (h : ∀ v ∈ vs, Inhabits W t v) :
      Inhabits W (makeArray t) (.array vs)
  | dictionary {t : TypeInfo} {entries : List (Bytes × Value)}
      (h : ∀ e ∈ entries, Inhabits W t e.2) : Inhabits W (makeDict t) (.dictionary entries)
  | success {t e : TypeInfo} {v : Value} {code source : Bytes} (h : Inhabits W t v) :
      Inhabits W (makeResult t e) (.result true v code source)
  | failure {t e : TypeInfo} {v : Value} {code source : Bytes} (h : Inhabits W e v) :
      Inhabits W (makeResult t e) (.result false v code source)
  | tuple {ts : List TypeInfo} {vs : List Value} (hlen : ts.length = vs.length)
      (h : ∀ p ∈ ts.zip vs, Inhabits W p.1 p.2) : Inhabits W (makeTuple ts) (.tuple vs)
  | task {t : TypeInfo} {identity : TaskIdentity}
      (h : ∀ v, W.outcome identity = some v → Inhabits W t v) :
      Inhabits W (makeTask t) (.task identity)
  | collection {c : CollectionKind} {t : TypeInfo} {vs : List Value}
      (h : ∀ v ∈ vs, Inhabits W t v) : Inhabits W (makeCollection c t) (c.value vs)
  | reference {t : TypeInfo} {address : Nat} (h : Inhabits W t (W.referent address)) :
      Inhabits W (makeReference t) (.reference address)
  | record {name typeName : Bytes} {args : List TypeInfo} {types : List (Bytes × TypeInfo)}
      {fields : List (Bytes × Value)} (huser : ∀ c : CollectionKind, name ≠ c.name)
      (hdecl : W.recordFields name typeName args = some types)
      (hnames : types.map Prod.fst = fields.map Prod.fst)
      (h : ∀ p ∈ types.zip fields, Inhabits W p.1.2 p.2.2) :
      Inhabits W (makeGeneric .record name args) (.record typeName fields)
  | interface {name typeName : Bytes} {args : List TypeInfo} {types : List (Bytes × TypeInfo)}
      {fields : List (Bytes × Value)} (hdecl : W.interfaceFields name args = some types)
      (hall : ∀ p ∈ types, (OrderedMap.lookup p.1 fields).isSome)
      (h : ∀ p ∈ types, ∀ v, OrderedMap.lookup p.1 fields = some v → Inhabits W p.2 v) :
      Inhabits W (makeGeneric .interface name args) (.record typeName fields)
  | closure {name : Bytes} {params : List TypeInfo} {ret : Option TypeInfo} {identity : Nat}
      (h : W.closureHas identity (.mk .func name params ret)) :
      Inhabits W (.mk .func name params ret) (.function identity)
  | channel {t : TypeInfo} (address : Nat) :
      Inhabits W (makeSingleInner .channel t) (.channel address)
  | choice {name typeName variant : Bytes} {args types : List TypeInfo} {fields : List Value}
      (hdecl : W.variantFields name typeName variant args = some types)
      (hlen : types.length = fields.length) (h : ∀ p ∈ types.zip fields, Inhabits W p.1 p.2) :
      Inhabits W (makeGeneric .choice name args) (.choice typeName variant fields)

namespace Inhabits

variable {W : World} {t e : TypeInfo} {v : Value}

theorem integer_inv (h : Inhabits W (make .integer) v) : ∃ n, v = .integer n := by
  cases h with
  | integer n => exact ⟨n, rfl⟩

theorem number_inv (h : Inhabits W (make .number) v) : ∃ x, v = .number x := by
  cases h with
  | number x => exact ⟨x, rfl⟩

theorem none_inv (h : Inhabits W (make .none) v) : v = .null := by
  cases h with
  | none => rfl

theorem void_inv (h : Inhabits W (make .void) v) : v = .null := by
  cases h with
  | void => rfl

theorem optional_inv (h : Inhabits W (makeOptional t) v) : v = .null ∨ Inhabits W t v := by
  cases h with
  | missing => exact .inl rfl
  | present h => exact .inr h

theorem array_inv (h : Inhabits W (makeArray t) v) :
    ∃ vs, v = .array vs ∧ ∀ x ∈ vs, Inhabits W t x := by
  cases h with
  | array h => exact ⟨_, rfl, h⟩

theorem dictionary_inv (h : Inhabits W (makeDict t) v) :
    ∃ entries, v = .dictionary entries ∧ ∀ x ∈ entries, Inhabits W t x.2 := by
  cases h with
  | dictionary h => exact ⟨_, rfl, h⟩

theorem result_inv (h : Inhabits W (makeResult t e) v) :
    ∃ isSuccess inner code source, v = .result isSuccess inner code source ∧
      Inhabits W (if isSuccess then t else e) inner := by
  cases h with
  | success h => exact ⟨true, _, _, _, rfl, h⟩
  | failure h => exact ⟨false, _, _, _, rfl, h⟩

theorem tuple_inv {ts : List TypeInfo} (h : Inhabits W (makeTuple ts) v) :
    ∃ vs, v = .tuple vs ∧ ts.length = vs.length ∧ ∀ p ∈ ts.zip vs, Inhabits W p.1 p.2 := by
  cases h with
  | tuple hlen h => exact ⟨_, rfl, hlen, h⟩

theorem task_inv (h : Inhabits W (makeTask t) v) :
    ∃ identity, v = .task identity ∧ ∀ x, W.outcome identity = some x → Inhabits W t x := by
  cases h with
  | task h => exact ⟨_, rfl, h⟩

theorem collection_inv {c : CollectionKind} (h : Inhabits W (makeCollection c t) v) :
    ∃ vs, v = c.value vs ∧ ∀ x ∈ vs, Inhabits W t x := by
  generalize hname : makeCollection c t = ty at h
  cases h with
  | @collection d s vs h =>
    simp only [makeCollection, makeGeneric, mk.injEq, List.cons.injEq, and_true, true_and] at hname
    obtain ⟨hkind, rfl⟩ := hname
    cases CollectionKind.name_injective hkind
    exact ⟨vs, rfl, h⟩
  | record huser _ _ _ =>
    simp only [makeCollection, makeGeneric, mk.injEq, and_true, true_and] at hname
    exact absurd hname.1.symm (huser c)
  | _ => simp [makeCollection, makeGeneric, make, makeOptional, makeArray, makeDict, makeResult,
      makeTuple, makeTask, makeReference, makeSingleInner] at hname

end Inhabits

end TypeInfo

end Luma
