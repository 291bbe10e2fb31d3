-- SUMMARY: Assignments make the storage they write to exclusive, so that a loop's iterable keeps what it reads.
import Luma.Library.SharedStorage
import Luma.Vm.Iteration

/-! # Copy On Write

Arrays, dictionaries and records are pointers to storage that several values may share. An
assignment through a path walks from a variable to the container it writes to and makes
exclusive each container on the way. What the iterator of a loop points at is shared with
it, so no assignment reaches it. -/

namespace Luma.CopyOnWrite

open Codec Iteration SharedStorage

/-! ## Values and storage -/

/-- A value in a variable, on the stack or in a container. -/
inductive Slot where
  | data (value : Value)
  | pointer (address : Nat)

/-- Containers that no assignment writes to. -/
inductive Sealed where
  | tuple
  | queue
  | stack
  | set
  | choice (typeName variant : Bytes)
  | result (isSuccess : Bool) (errorCode sourceFunction : Bytes)

/-- What a pointer leads to. An array points at its elements, which other arrays may point at too. -/
inductive Storage where
  | vector (elements : List Slot)
  | array (elements : Nat)
  | dictionary (entries : List (Bytes × Slot))
  | record (typeName : Bytes) (fields : List (Bytes × Slot))
  | sealed (kind : Sealed) (elements : List Slot)

def Storage.slots : Storage → List Slot
  | .vector elements => elements
  | .array elements => [.pointer elements]
  | .dictionary entries => entries.map Prod.snd
  | .record _ fields => fields.map Prod.snd
  | .sealed _ elements => elements

def Slot.address : Slot → Option Nat
  | .data _ => none
  | .pointer a => some a

def Storage.pointers (storage : Storage) : List Nat := storage.slots.filterMap Slot.address

/-! ## Reading values -/

def Sealed.value : Sealed → List Value → Value
  | .tuple, values => .tuple values
  | .queue, values => .queue values
  | .stack, values => .stack values
  | .set, values => .set values
  | .choice typeName variant, values => .choice typeName variant values
  | .result isSuccess errorCode sourceFunction, values => .result isSuccess (values.headD .null) errorCode sourceFunction

def readSlot (follow : Nat → Option Value) : Slot → Option Value
  | .data value => some value
  | .pointer a => follow a

def readEntry (follow : Nat → Option Value) (entry : Bytes × Slot) : Option (Bytes × Value) :=
  (readSlot follow entry.2).map (entry.1, ·)

def Storage.value (follow : Nat → Option Value) : Storage → Option Value
  | .vector elements => (elements.mapM (readSlot follow)).map .array
  | .array elements => follow elements
  | .dictionary entries => (entries.mapM (readEntry follow)).map .dictionary
  | .record typeName fields => (fields.mapM (readEntry follow)).map (.record typeName)
  | .sealed kind elements => (elements.mapM (readSlot follow)).map kind.value

/-- The value of a slot, as deep as it is read. -/
def valueOf (depth : Nat) (heap : List Storage) (slot : Slot) : Option Value := readSlot (readAt Storage.value heap depth) slot

/-! ## The state -/

structure State where
  heap : List Storage
  /-- Locals, globals and upvalues. -/
  bindings : List Slot
  /-- What else is on the operand stack: iterators of other loops, containers of an assignment around
      the loop. -/
  temporaries : List Slot
  /-- The containers that assignments of the loop's body have on the operand stack. -/
  targets : List Slot
  /-- The iterable of a loop. -/
  iterated : Slot

/-- Where a pointer is held. -/
inductive Place where
  | binding (i : Nat)
  | temporary (i : Nat)
  | target (i : Nat)
  | iterated
  | inside (address position : Nat)

namespace State

/-- What the places outside the storage hold. -/
def root (st : State) : Place → Option Slot
  | .binding i => st.bindings[i]?
  | .temporary i => st.temporaries[i]?
  | .target i => st.targets[i]?
  | .iterated => some st.iterated
  | .inside _ _ => none

/-- Storage that is not garbage. -/
def Live (st : State) (a : Nat) : Prop :=
  ∃ place b, st.root place = some (.pointer b) ∧ Reaches Storage.pointers st.heap b a

/-- A place holds a pointer. -/
def Holds (st : State) (a : Nat) : Place → Prop
  | .inside b k => st.Live b ∧ ∃ storage, st.heap[b]? = some storage ∧ storage.slots[k]? = some (.pointer a)
  | place => st.root place = some (.pointer a)

/-- What the iterable leads to. -/
def Visible (st : State) (a : Nat) : Prop := ∃ i, st.iterated = .pointer i ∧ Reaches Storage.pointers st.heap i a

end State

/-- `std::shared_ptr::use_count`: what two places hold is counted twice. -/
def Counts (useCount : State → Nat → Nat) : Prop :=
  ∀ {st : State} {a : Nat} {place place' : Place}, place ≠ place' → st.Holds a place → st.Holds a place' → 1 < useCount st a

/-! ## Assignments -/

/-- A container that `make_exclusive` copies. -/
def Storage.isWritable : Storage → Bool
  | .array _ | .dictionary _ | .record _ _ => true
  | .vector _ | .sealed _ _ => false

section Assignments

variable (useCount : State → Nat → Nat)

/-- `Value::make_exclusive` on a slot: the slot afterwards, and the heap. -/
def makeExclusive (st : State) (slot : Slot) : Slot × List Storage :=
  match slot with
  | .data _ => (slot, st.heap)
  | .pointer a =>
    match st.heap[a]? with
    | none => (slot, st.heap)
    | some storage =>
      if storage.isWritable && useCount st a > 1 then (.pointer st.heap.length, st.heap ++ [storage])
      else (slot, st.heap)

/-- `op_unique_local`, `op_unique_upvalue`, `op_unique_global` -/
def uniqueVariable (st : State) (x : Nat) : State :=
  match st.bindings[x]? with
  | none => st
  | some slot =>
    let (slot, heap) := makeExclusive useCount st slot
    { st with heap, bindings := st.bindings.set x slot }

/-- `ArrayValue::ensure_unique` on the array at an address. -/
def ensureUnique (st : State) (a : Nat) : State :=
  match st.heap[a]? with
  | some (.array v) =>
    match st.heap[v]? with
    | none => st
    | some storage =>
      if useCount st v > 1 then { st with heap := (st.heap ++ [storage]).set a (.array st.heap.length) } else st
  | _ => st

/-- What an index or a field name of a path selects. -/
inductive PathStep where
  | index (i : Int64)
  | key (key : Bytes)
  | field (name : Bytes)

/-- The storage of the slots of a container and the position that a step selects there, `none` where
    the step raises. -/
def locate (heap : List Storage) (a : Nat) (step : PathStep) : Option (Nat × Nat) :=
  match heap[a]?, step with
  | some (.array v), .index i =>
    match heap[v]? with
    | some (.vector elements) => if isIndexOutOfBounds i elements.length then none else some (v, asSize i)
    | _ => none
  | some (.dictionary entries), .key key => (OrderedMap.position key entries).map (a, ·)
  | some (.record _ fields), .field name => (OrderedMap.position name fields).map (a, ·)
  | some (.sealed _ elements), .index i => if isIndexOutOfBounds i elements.length then none else some (a, asSize i)
  | _, _ => none

/-- Storage with one slot written. -/
def Storage.write (slot : Slot) (k : Nat) : Storage → Storage
  | .vector elements => .vector (elements.set k slot)
  | .array elements => .array elements
  | .dictionary entries => .dictionary (entries.modify k fun entry => (entry.1, slot))
  | .record typeName fields => .record typeName (fields.modify k fun field => (field.1, slot))
  | .sealed kind elements => .sealed kind elements

/-- `handle_index_get_unique` and `handle_get_field_unique`: the container on top of the operand stack
    is replaced by what a step selects, which is made exclusive unless the container is sealed. -/
def getUnique (st : State) (step : PathStep) : Option State :=
  match st.targets with
  | .pointer a :: rest =>
    let st := ensureUnique useCount st a
    match locate st.heap a step with
    | none => none
    | some (b, k) =>
      match st.heap[b]? with
      | none => none
      | some storage =>
        match storage.slots[k]? with
        | none => none
        | some slot =>
          match storage with
          | .sealed _ _ => some { st with targets := slot :: rest }
          | _ =>
            let (slot, heap) := makeExclusive useCount st slot
            some { st with heap := heap.set b (storage.write slot k), targets := slot :: rest }
  | _ => none

/-- `handle_index_set` and `handle_set_field`: the value is written into the container on top of the
    operand stack. A key that is new is added to a dictionary. -/
def setElement (maxDictionarySize : Nat) (st : State) (step : PathStep) (value : Slot) : Option State :=
  match st.targets with
  | .pointer a :: rest =>
    let st := ensureUnique useCount st a
    match st.heap[a]? with
    | none | some (.vector _) | some (.sealed _ _) => none
    | some storage =>
      match locate st.heap a step, storage, step with
      | some (b, k), _, _ =>
        match st.heap[b]? with
        | none => none
        | some storage => some { st with heap := st.heap.set b (storage.write value k), targets := rest }
      | none, .dictionary entries, .key key =>
        match ensureDictionaryCapacity maxDictionarySize entries.length 1 "Dictionary index assignment" with
        | .error _ => none
        | .ok _ => some { st with heap := st.heap.set a (.dictionary (entries ++ [(key, value)])), targets := rest }
      | none, _, _ => none
  | _ => none

end Assignments

end Luma.CopyOnWrite
