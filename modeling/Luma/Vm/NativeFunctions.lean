-- SUMMARY: Native functions that call back into the VM, and what they make of exceptions.
import Luma.Library.Interaction
import Luma.Vm.State

/-! # Native Functions

A native function computes in C++ and calls functions of the program through
`invokeCallable`. An exception of such a call passes through the native code, unless the
native code catches it. -/

namespace Luma.Vm

open Codec

/-- Native code that computes an `α`: it asks for calls and is told how they ended. -/
abbrev NativeCode (V α : Type) := Interaction (V × List V) (Except (Raised V) V) (Raised V) α

/-- What native functions do with values. -/
structure NativeValues (V : Type) where
  null : V
  ofBool : Bool → V
  isNull : V → Bool
  isTruthy : V → Bool
  makeArray : List V → V
  makeSuccess : V → V
  /-- A failure with a message, and with an error code and the function it comes from. -/
  makeFailure : ErrorMessage → Option (String × String) → V
  emptyDictionary : V
  /-- Count a key, by its text, in a dictionary of counts. -/
  tally : V → V → V

namespace NativeCode

variable {V α : Type}

/-- What native code does next, as the VM sees it. -/
def action {N : Type} (wait : (Except (Raised V) V → NativeCode V V) → N) :
    NativeCode V V → NativeAction V N
  | .done result => .finish result
  | .ask (callee, args) next => .call callee args (wait next)

/-- Call a callable value. -/
def invokeCallable (callable : V) (args : List V) : NativeCode V V :=
  .ask (callable, args) .done

/-- A `catch` of RuntimeError and of std::exception. A CancelledException is one too, and
    the signals are not. -/
def catchingExceptions (handler : ErrorMessage → V) : NativeCode V V → NativeCode V V :=
  Interaction.catching fun
    | .error message _ => .pure (handler message)
    | .cancelled message => .pure (handler message)
    | .foreign => .throw .foreign

section

variable (values : NativeValues V)

def failureFromException (message : ErrorMessage) : V := values.makeFailure message none

def formatFunctionName (module_ function : String) : String := s!"{module_}.{function}"

/-! ## Error handling wrappers -/

/-- Apply a mapper to each element and collect what it adds. -/
def mapWithErrorHandling (elements : List V) (callable : V)
    (mapper : List V → V → V → NativeCode V (List V)) : NativeCode V V :=
  catchingExceptions (failureFromException values)
    ((Interaction.fold (fun out element => mapper out element callable) [] elements).bind fun out =>
      .pure (values.makeSuccess (values.makeArray out)))

def applyWithErrorHandling (func : NativeCode V V) : NativeCode V V :=
  catchingExceptions (failureFromException values)
    (func.bind fun value => .pure (values.makeSuccess value))

def safeCall (module_ function : String) (fn : NativeCode V V) : NativeCode V V :=
  catchingExceptions
    (fun message => values.makeFailure message
      (some ("operation_failed", formatFunctionName module_ function)))
    (fn.bind fun value => .pure (values.makeSuccess value))

/-- The first element that satisfies the predicate. -/
def findFirst (predicate : V) (transform : Nat → V → V) : Nat → List V → NativeCode V V
  | _, [] => .pure (values.makeFailure "element not found" none)
  | index, element :: elements =>
    (invokeCallable predicate [element]).bind fun value =>
      if values.isTruthy value then .pure (values.makeSuccess (transform index element))
      else findFirst predicate transform (index + 1) elements

def findWithErrorHandling (elements : List V) (predicate : V) (transform : Nat → V → V) :
    NativeCode V V :=
  catchingExceptions (failureFromException values) (findFirst values predicate transform 0 elements)

/-! ## Functions built on them -/

/-- The mapper of Array.map. -/
def mapMapper (out : List V) (element callable : V) : NativeCode V (List V) :=
  (invokeCallable callable [element]).bind fun value => .pure (out ++ [value])

/-- The mapper of Array.filter. -/
def filterMapper (out : List V) (element callable : V) : NativeCode V (List V) :=
  (invokeCallable callable [element]).bind fun value =>
    .pure (if values.isTruthy value then out ++ [element] else out)

def containerReduce (elements : List V) (accumulator callable : V) : NativeCode V V :=
  applyWithErrorHandling values
    (Interaction.fold (fun accumulator element => invokeCallable callable [accumulator, element])
      accumulator elements)

def containerEach (elements : List V) (callable : V) : NativeCode V V :=
  applyWithErrorHandling values
    ((Interaction.fold (fun _ element => (invokeCallable callable [element]).bind fun _ => .pure ()) ()
      elements).bind fun _ => .pure values.null)

/-- Is there an element whose truth is `wanted`? The answer stops the iteration. -/
def iterUntil (predicate : V) (wanted : Bool) : List V → NativeCode V Bool
  | [] => .pure false
  | element :: elements =>
    (invokeCallable predicate [element]).bind fun value =>
      if values.isTruthy value = wanted then .pure true
      else iterUntil predicate wanted elements

def iterAll (elements : List V) (predicate : V) : NativeCode V V :=
  applyWithErrorHandling values
    ((iterUntil values predicate false elements).bind fun found => .pure (values.ofBool !found))

def iterAny (elements : List V) (predicate : V) : NativeCode V V :=
  applyWithErrorHandling values
    ((iterUntil values predicate true elements).bind fun found => .pure (values.ofBool found))

def iterNone (elements : List V) (predicate : V) : NativeCode V V :=
  applyWithErrorHandling values
    ((iterUntil values predicate true elements).bind fun found => .pure (values.ofBool !found))

/-! ## Functions that catch nothing, or rethrow -/

/-- Optional.flat_map. -/
def flatMapImpl (optional callable : V) : NativeCode V V :=
  if values.isNull optional then .pure values.null else invokeCallable callable [optional]

/-- Array.count_by. -/
def countBy (elements : List V) (keyFn : V) : NativeCode V V :=
  Interaction.fold (fun dict element => (invokeCallable keyFn [element]).bind fun key =>
    .pure (values.tally dict key)) values.emptyDictionary elements

/-- Call a cleanup function. Its exceptions are logged and go no further. -/
def safeCleanup (cleanupFn resource : V) : NativeCode V Unit :=
  ((invokeCallable cleanupFn [resource]).bind fun _ => .pure ()).catching fun _ => .pure ()

/-- Resource.with: call the body, and the cleanup function however the body ends. -/
def runWithCleanup (resource bodyFn cleanupFn : V) : NativeCode V V :=
  ((invokeCallable bodyFn [resource]).catching fun e =>
    (safeCleanup cleanupFn resource).bind fun _ => .throw e).bind fun result =>
      (invokeCallable cleanupFn [resource]).bind fun _ => .pure result

end

/-! ## Cancellations -/

def IsCancelled : Raised V → Prop
  | .cancelled _ => True
  | _ => False

/-- Was a call ended by a cancellation? -/
def EndsCancelled : Except (Raised V) V → Prop
  | .error e => IsCancelled e
  | .ok _ => False

/-- The native code lets a cancellation pass. -/
def PassesOn (p : NativeCode V α) : Prop := Interaction.Relays EndsCancelled IsCancelled p

theorem catchingExceptions_swallows {handler : ErrorMessage → V} {p : NativeCode V V}
    {result : Except (Raised V) V} (h : Interaction.Ends (catchingExceptions handler p) result) :
    ¬ EndsCancelled result := by
  obtain ⟨value, rfl, -⟩ | ⟨e, -, h⟩ := h.of_catching
  · exact id
  cases e <;> cases h <;> exact id

theorem invokeCallable_passesOn {callable : V} {args : List V} :
    PassesOn (invokeCallable callable args) := by
  refine .ask (fun answer hcancelled result hends => ?_) fun _ _ => .done
  cases hends
  cases answer with
  | ok => exact hcancelled.elim
  | error e => exact ⟨e, hcancelled, rfl⟩

theorem flatMapImpl_passesOn {values : NativeValues V} {optional callable : V} :
    PassesOn (flatMapImpl values optional callable) := by
  unfold flatMapImpl
  split
  · exact .done
  · exact invokeCallable_passesOn

theorem countBy_passesOn {values : NativeValues V} {elements : List V} {keyFn : V} :
    PassesOn (countBy values elements keyFn) :=
  Interaction.Relays.fold (fun _ _ => invokeCallable_passesOn.bind fun _ => .done) elements _

/-- Whatever its cleanup function does, a cancellation of the body is passed on. -/
theorem runWithCleanup_body_cancelled {resource bodyFn cleanupFn : V} :
    ∃ next, runWithCleanup resource bodyFn cleanupFn = .ask (bodyFn, [resource]) next ∧
      ∀ e, IsCancelled e → Interaction.Fails IsCancelled (next (.error e)) := by
  refine ⟨_, rfl, fun e he => Interaction.Fails.bind _ fun result hends => ?_⟩
  obtain ⟨-, -, hends⟩ | ⟨e', hcleanup, -⟩ := Interaction.Ends.of_bind hends
  · cases hends
    exact ⟨e, he, rfl⟩
  · -- The cleanup function ends without an exception.
    obtain ⟨_, hok, -⟩ | ⟨_, -, hends⟩ := hcleanup.of_catching
    · cases hok
    · cases hends

end NativeCode

end Luma.Vm
