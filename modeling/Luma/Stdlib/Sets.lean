-- SUMMARY: The operations of the Set module on set objects with a lazily built hash index.
import Luma.Library.Triple
import Luma.Value.Equality

/-! # The Set Module

A set object holds its elements in the order of their first insertion, and an index of
them that the first lookup builds. An operation never changes the elements of an object:
it makes a new one. Set objects are named by their position among all that were made. -/

namespace Luma

open Codec

/-- A set object. `hashIndex` holds the keys of the index once it is built. -/
structure SetValue where
  elements : List Value
  hashIndex : Option (List Value) := none

namespace SetModule

/-- The set objects made so far. -/
abbrev Objects := List SetValue

abbrev Native (α : Type) := Stateful Objects ErrorMessage α

/-- What a callable returns on its `i`-th call, and what that call is on. -/
abbrev Callable := Nat → Value → Except ErrorMessage Value

/-- What a call hands out: a truth value, a new set, or two new sets. -/
inductive Reply where
  | bool (b : Bool)
  | set (s : Nat)
  | pair (matching rest : Nat)
  deriving DecidableEq

section Operations

variable (h : StdHash) (maxSetSize : Nat)

/-! ## Objects -/

def elementsAt (objects : Objects) (s : Nat) : List Value :=
  match objects[s]? with
  | some set => set.elements
  | none => []

def elementsOf (s : Nat) : Native (List Value) := (elementsAt · s) <$> get

/-- Make a new set object, with no index yet. -/
def makeSet (elements : List Value) : Native Nat := do
  let objects ← get
  set (objects ++ [{ elements := elements }])
  return objects.length

/-- The keys of the index, which is built now unless it was before. -/
def ensureBuilt (set : SetValue) : Except ErrorMessage (List Value) :=
  match set.hashIndex with
  | some keys => .ok keys
  | none => Value.buildIndex h (Value.equals h) [] set.elements

/-- Look a value up in the index of a set. An index once built stays. -/
def contains (s : Nat) (value : Value) : Native Bool := ExceptT.mk fun objects =>
  match objects[s]? with
  | none => (.ok false, objects)
  | some set =>
    match ensureBuilt h set with
    | .error e => (.error e, objects)
    | .ok keys =>
      (Value.indexContains h (Value.equals h) keys value, objects.set s { set with hashIndex := some keys })

/-! ## Helpers -/

def validateContainerSize (currentSize adding : Nat) (functionName : String) : Except ErrorMessage Unit :=
  if maxSetSize < adding ∨ maxSetSize - adding < currentSize then .error s!"{functionName}: exceeds maximum size"
  else .ok ()

def allMembersIn (s : Nat) : List Value → Native Bool
  | [] => return true
  | e :: xs => do if ← contains h s e then allMembersIn s xs else return false

def anyMemberIn (s : Nat) : List Value → Native Bool
  | [] => return false
  | e :: xs => do if ← contains h s e then return true else anyMemberIn s xs

/-- Append the elements that are in a set, or those that are not. -/
def appendMembers (s : Nat) (keepWhenPresent : Bool) (op : String) (out : List Value) : List Value → Native (List Value)
  | [] => return out
  | elem :: xs => do
    if (← contains h s elem) = keepWhenPresent then
      liftM (validateContainerSize maxSetSize out.length 1 op)
      appendMembers s keepWhenPresent op (out ++ [elem]) xs
    else appendMembers s keepWhenPresent op out xs

/-- Membership by a scan from the front. -/
def containsValue (elements : List Value) (needle : Value) : Except ErrorMessage Bool :=
  elements.anyM fun v => Value.equals h v needle

def pushUnique (elements : List Value) (value : Value) : Except ErrorMessage (List Value) := do
  if ← containsValue h elements value then return elements
  else
    validateContainerSize maxSetSize elements.length 1 "Set"
    return elements ++ [value]

/-- The elements that are not among those seen, appended to them. What was seen is what
    was emitted. -/
def dedupInOrder (seen : List Value) : List Value → Except ErrorMessage (List Value)
  | [] => .ok seen
  | elem :: elements => do
    if ← Value.indexContains h (Value.equals h) seen elem then dedupInOrder seen elements
    else
      validateContainerSize maxSetSize seen.length 1 "Set.from_array"
      dedupInOrder (seen ++ [elem]) elements

/-- Map by a callable, leaving out what was seen. -/
def containerMapUnique (callable : Callable) (i : Nat) (seen : List Value) : List Value → Except ErrorMessage (List Value)
  | [] => .ok seen
  | elem :: elements => do
    let mapped ← callable i elem
    if ← Value.indexContains h (Value.equals h) seen mapped then containerMapUnique callable (i + 1) seen elements
    else containerMapUnique callable (i + 1) (seen ++ [mapped]) elements

/-- The elements of both lists without repetition, those of the first before. -/
def containerConcatUnique (a b : List Value) : Except ErrorMessage (List Value) := do
  let seen ← Value.buildIndex h (Value.equals h) [] a
  Value.buildIndex h (Value.equals h) seen b

/-- Split by what a callable says of each element. -/
def containerPartition (callable : Callable) (i : Nat) (matching rest : List Value) :
    List Value → Except ErrorMessage (List Value × List Value)
  | [] => .ok (matching, rest)
  | elem :: elements => do
    if (← callable i elem).isTruthy then containerPartition callable (i + 1) (matching ++ [elem]) rest elements
    else containerPartition callable (i + 1) matching (rest ++ [elem]) elements

def containerFilter (callable : Callable) (i : Nat) (out : List Value) : List Value → Except ErrorMessage (List Value)
  | [] => .ok out
  | elem :: elements => do
    if (← callable i elem).isTruthy then containerFilter callable (i + 1) (out ++ [elem]) elements
    else containerFilter callable (i + 1) out elements

/-- The elements that do not equal a value. -/
def copyUnequal (value : Value) : List Value → Except ErrorMessage (List Value)
  | [] => .ok []
  | elem :: elements => do
    if ← Value.equals h elem value then copyUnequal value elements
    else return elem :: (← copyUnequal value elements)

/-! ## Functions -/

/-- A call of a function of the module, with set objects by position. A failing `map`,
    `filter` or `partition` hands its error out as a failed result. -/
inductive Call where
  | new
  | fromArray (elements : List Value)
  | contains (s : Nat) (value : Value)
  | union (a b : Nat)
  | intersection (a b : Nat)
  | difference (a b : Nat)
  | symmetricDifference (a b : Nat)
  | isSubset (a b : Nat)
  | isSuperset (a b : Nat)
  | isDisjoint (a b : Nat)
  | equals (a b : Nat)
  | add (s : Nat) (value : Value)
  | remove (s : Nat) (value : Value)
  | map (s : Nat) (callable : Callable)
  | filter (s : Nat) (callable : Callable)
  | partition (s : Nat) (callable : Callable)
  | concat (a b : Nat)

def Call.perform : Call → Native Reply
  | .new => return .set (← makeSet [])
  | .fromArray elements => do
    return .set (← makeSet (← liftM (dedupInOrder h maxSetSize [] elements)))
  | .contains s value => return .bool (← SetModule.contains h s value)
  | .union a b => do
    let out ← appendMembers h maxSetSize a false "Set.union" (← elementsOf a) (← elementsOf b)
    return .set (← makeSet out)
  | .intersection a b => do
    let out ← appendMembers h maxSetSize b true "Set.intersection" [] (← elementsOf a)
    return .set (← makeSet out)
  | .difference a b => do
    let out ← appendMembers h maxSetSize b false "Set.difference" [] (← elementsOf a)
    return .set (← makeSet out)
  | .symmetricDifference a b => do
    let out ← appendMembers h maxSetSize b false "Set.symmetric_difference" [] (← elementsOf a)
    let out ← appendMembers h maxSetSize a false "Set.symmetric_difference" out (← elementsOf b)
    return .set (← makeSet out)
  | .isSubset a b => return .bool (← allMembersIn h b (← elementsOf a))
  | .isSuperset a b => return .bool (← allMembersIn h a (← elementsOf b))
  | .isDisjoint a b => return .bool !(← anyMemberIn h b (← elementsOf a))
  | .equals a b => do
    if (← elementsOf a).length ≠ (← elementsOf b).length then return .bool false
    else return .bool (← allMembersIn h b (← elementsOf a))
  | .add s value => do
    return .set (← makeSet (← liftM (pushUnique h maxSetSize (← elementsOf s) value)))
  | .remove s value => do
    return .set (← makeSet (← liftM (copyUnequal h value (← elementsOf s))))
  | .map s callable => do
    return .set (← makeSet (← liftM (containerMapUnique h callable 0 [] (← elementsOf s))))
  | .filter s callable => do
    return .set (← makeSet (← liftM (containerFilter callable 0 [] (← elementsOf s))))
  | .partition s callable => do
    let (matching, rest) ← liftM (containerPartition callable 0 [] [] (← elementsOf s))
    return .pair (← makeSet matching) (← makeSet rest)
  | .concat a b => do
    let as ← elementsOf a
    let bs ← elementsOf b
    liftM (validateContainerSize maxSetSize as.length bs.length "Set.concat")
    return .set (← makeSet (← liftM (containerConcatUnique h as bs)))

end Operations

end SetModule

end Luma
