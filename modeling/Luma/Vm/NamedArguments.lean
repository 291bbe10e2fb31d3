-- SUMMARY: How a call binds its arguments to parameters: in the VM, in the callee and in the type checker.
import Luma.Vm.Instructions

/-! # Named Arguments

A call gives its arguments by position or by name. The VM binds them to the slots of
the parameters when it enters the callee, and pads the slots that are left; code at
the start of the callee then evaluates default values. The type checker has a
mapping of its own from arguments to parameters. -/

namespace Luma.Vm

open Codec

variable {α N W E : Type}

/-! ## Values, signatures and calls -/

/-- Values as binding tells them apart: `α` is every kind besides the ones it looks at. -/
inductive StackValue (α : Type) where
  | none
  | string (text : Bytes)
  | function (id : FunctionId) (upvalues : List α)
  | other (value : α)
  deriving DecidableEq, Repr

def StackValue.isNone : StackValue α → Bool
  | .none => true
  | _ => false

/-- A declared parameter. `isOptional` says whether it has a default value. -/
structure Parameter where
  name : Bytes
  isOptional : Bool
  deriving DecidableEq, Repr

/-- The parameters of a declared function. Declaring a parameter as a local refuses a
    name that is taken, and more locals than there are slots. -/
structure Signature where
  parameters : List Parameter
  nodup : (parameters.map Parameter.name).Nodup
  fits : parameters.length < 65535

namespace Signature

def names (sig : Signature) : List Bytes := sig.parameters.map Parameter.name

def arity (sig : Signature) : Nat := sig.parameters.length

/-- The number of parameters without a default value. -/
def requiredCount (sig : Signature) : Nat := sig.parameters.countP fun p => !p.isOptional

/-- Is there a parameter without a default value at a position? -/
def IsRequired (sig : Signature) (i : Nat) : Prop :=
  ∃ p, sig.parameters[i]? = some p ∧ p.isOptional = false

/-- Is there a parameter with a default value at a position? -/
def IsOptional (sig : Signature) (i : Nat) : Prop :=
  ∃ p, sig.parameters[i]? = some p ∧ p.isOptional = true

/-- What `emit_function_definition` records of the parameters in the compiled function. -/
structure DeclaredBy (sig : Signature) (func : CompiledFunction) : Prop where
  arity : func.arity = sig.arity
  requiredArity : func.requiredArity = sig.requiredCount
  paramNames : func.paramNames = sig.names

end Signature

/-- A call of a declared function, with the values of its arguments. A piped value is
    the first argument. The numbers of arguments are bytes of the instruction. -/
structure CallExpression (α : Type) where
  piped : Option (StackValue α)
  arguments : List (StackValue α)
  named : List (Bytes × StackValue α)
  positional_fits : (piped.toList ++ arguments).length < 256
  named_fits : named.length < 256

namespace CallExpression

/-- The arguments given by position. -/
def positional (call : CallExpression α) : List (StackValue α) := call.piped.toList ++ call.arguments

/-- What the call leaves on the stack above the callee, in the order of evaluation. -/
def operands (call : CallExpression α) : List (StackValue α) :=
  call.positional ++ call.named.flatMap fun (name, value) => [.string name, value]

/-- The operands of the instruction that a call ends with: `Call`, or `CallNamed` if
    there are named arguments. -/
def operandBytes (call : CallExpression α) : Bytes :=
  if call.named.isEmpty then [UInt8.ofNat call.positional.length]
  else [UInt8.ofNat call.positional.length, UInt8.ofNat call.named.length]

end CallExpression

/-! ## Binding in the VM -/

/-- The text of a name in a message. -/
def nameText (name : Bytes) : String := (String.fromUTF8? ⟨name.toArray⟩).getD ""

/-- The slots of the parameters. A slot holds a value once it is bound. -/
abbrev ArgumentSlots (α : Type) := List (Option (StackValue α))

def bindPositionalArgs (args : ArgumentSlots α) (posArgs : List (StackValue α)) (fullArity : Nat) :
    Except (Raised (StackValue α)) (ArgumentSlots α) :=
  if fullArity < posArgs.length then
    .error (.error
      s!"too many positional arguments: function expects {fullArity} but got {posArgs.length}" none)
  else .ok (posArgs.map some ++ args.drop posArgs.length)

/-- The position of the first parameter with a name. -/
def paramNameIndex (func : CompiledFunction) (name : Bytes) : Option Nat := func.paramNames.idxOf? name

def bindNamedArgs (func : CompiledFunction) (args : ArgumentSlots α) :
    List (Bytes × StackValue α) → Except (Raised (StackValue α)) (ArgumentSlots α)
  | [] => .ok args
  | (name, value) :: namedPairs =>
    match paramNameIndex func name with
    | some index => bindNamedArgs func (args.set index (some value)) namedPairs
    | none => .error (.error s!"unknown named argument '{nameText name}'" none)

/-- The first `required_arity` parameters are taken to be the required ones. -/
def requireAllRequiredArgsBound (func : CompiledFunction) (args : ArgumentSlots α) :
    Except (Raised (StackValue α)) Unit :=
  match (List.range func.requiredArity).find? fun i => ((args[i]?).getD none).isNone with
  | some i =>
    .error (.error s!"missing required argument '{nameText (func.paramNames.getD i [])}'" none)
  | none => .ok ()

/-- The names that were pushed with the named arguments. -/
def namedPairs : List (StackValue α × StackValue α) →
    Except (Raised (StackValue α)) (List (Bytes × StackValue α))
  | [] => .ok []
  | (.string name, value) :: pairs => do
    let pairs ← namedPairs pairs
    .ok ((name, value) :: pairs)
  | _ :: _ => .error (.error "invalid named-call operand: argument name is not a string" none)

def bindArguments (func : CompiledFunction) (posArgs : List (StackValue α))
    (named : List (StackValue α × StackValue α)) :
    Except (Raised (StackValue α)) (Nat → StackValue α) := do
  let pairs ← namedPairs named
  let args ← bindPositionalArgs (List.replicate func.arity none) posArgs func.arity
  let args ← bindNamedArgs func args pairs
  requireAllRequiredArgsBound func args
  .ok fun i => ((args[i]?).getD none).getD .none

/-- A runtime over these values, with the functions among them and the binding of the VM. -/
def bindingRuntime (rt : Runtime (StackValue α) N W) : Runtime (StackValue α) N W :=
  { rt with
    none := .none
    callee := fun v => match v with
      | .function id _ => .function id
      | v => rt.callee v
    bindArguments := bindArguments }

/-- The instruction that a call ends with. -/
def handleCallExpression (rt : Runtime (StackValue α) N W) (call : CallExpression α) :
    Exec (StackValue α) N W Unit :=
  if call.named.isEmpty then handleCall (bindingRuntime rt) else handleCallNamed (bindingRuntime rt)

/-! ## Default values -/

/-- The default values of the parameters: each reads the slots of the parameters and may
    assign them, and computes a value unless it ends otherwise. -/
abbrev DefaultValues (α W E : Type) :=
  Nat → List (StackValue α) → W → Except E (StackValue α × List (StackValue α)) × W

/-- A default value is checked in the scope of the parameters up to its own, so it
    assigns no later one. -/
def ScopedDefaults (defaults : DefaultValues α W E) : Prop :=
  ∀ i slots world v slots' world', defaults i slots world = (.ok (v, slots'), world') →
    slots'.length = slots.length ∧ ∀ j, i < j → slots'[j]? = slots[j]?

/-- What the start of a callee has done: `evaluated` are the parameters whose default
    value it evaluated, and `stopped` how one of these ended if not with a value. -/
structure Prologue (α W E : Type) where
  slots : List (StackValue α)
  world : W
  evaluated : List Nat
  stopped : Option E

/-- The code for one parameter: a default value is evaluated if the parameter is missing. -/
def defaultParameterValue (isMissing : Nat → List (StackValue α) → Bool) (defaults : DefaultValues α W E)
    (st : Prologue α W E) (param : Parameter × Nat) : Prologue α W E :=
  if st.stopped.isNone && param.1.isOptional && isMissing param.2 st.slots then
    let evaluated := st.evaluated ++ [param.2]
    match defaults param.2 st.slots st.world with
    | (.ok (v, slots), world) => { st with slots := slots.set param.2 v, world, evaluated }
    | (.error e, world) => { st with world, evaluated, stopped := some e }
  else st

def defaultParameterValues (isMissing : Nat → List (StackValue α) → Bool) (sig : Signature)
    (defaults : DefaultValues α W E) (slots : List (StackValue α)) (world : W) : Prologue α W E :=
  sig.parameters.zipIdx.foldl (defaultParameterValue isMissing defaults) ⟨slots, world, [], none⟩

/-- The code of the callee compares the slot of a parameter with none. -/
def slotIsNone (i : Nat) (slots : List (StackValue α)) : Bool := (slots.getD i .none).isNone

/-! ## The mapping of the type checker -/

/-- The parameter that each written argument binds to. -/
structure CallArgumentMapping where
  positional : List (Option Nat)
  named : List (Option Nat)
  deriving DecidableEq, Repr

/-- An error of the type checker. All of these have the code `WrongArgCount`. -/
structure ArgumentDiagnostic where
  message : String
  hint : String
  deriving DecidableEq, Repr

def arityMismatch (expected actual : Nat) : ArgumentDiagnostic where
  message := s!"wrong number of arguments: expected {expected}, got {actual}"
  hint := "check the function signature for the expected number of parameters"

def arityMismatchRange (minExpected maxExpected actual : Nat) : ArgumentDiagnostic where
  message := s!"wrong number of arguments: expected {minExpected}-{maxExpected}, got {actual}"
  hint := "check the function signature — some parameters have default values"

/-- Mapping the named arguments: the parameters filled so far, the mapping and the errors. -/
structure NamedMapping where
  isFilled : List Bool
  named : List (Option Nat)
  diagnostics : List ArgumentDiagnostic
  areNamedValid : Bool

section

variable (suggestName : List Bytes → Bytes → String) (fnName : String) (sig : Signature)

/-- Map one named argument. -/
def mapNamedArgument (st : NamedMapping) (name : Bytes) : NamedMapping :=
  match sig.names.idxOf? name with
  | none =>
    let suggestion := suggestName sig.names name
    { st with
      named := st.named ++ [none]
      diagnostics := st.diagnostics ++ [{
        message := s!"'{fnName}' has no parameter named '{nameText name}'"
        hint := if suggestion.isEmpty then "check the function signature for its parameter names"
          else suggestion }]
      areNamedValid := false }
  | some index =>
    if st.isFilled.getD index false then
      { st with
        named := st.named ++ [none]
        diagnostics := st.diagnostics ++ [{
          message := s!"parameter '{nameText name}' of '{fnName}' is given more than once"
          hint := "pass each parameter once — either by position or by name" }]
        areNamedValid := false }
    else { st with isFilled := st.isFilled.set index true, named := st.named ++ [some index] }

/-- The errors for parameters without a default value that nothing filled. -/
def missingArguments (isFilled : List Bool) : List ArgumentDiagnostic :=
  sig.parameters.zipIdx.filterMap fun (p, i) =>
    if !isFilled.getD i false && !p.isOptional then
      some {
        message := s!"missing argument for parameter '{nameText p.name}' of '{fnName}'"
        hint := "pass a value for every parameter without a default" }
    else none

/-- The mapping of a call and the errors that are reported for it. -/
def mapCallArguments (call : CallExpression α) : CallArgumentMapping × List ArgumentDiagnostic :=
  let paramOffset := call.piped.toList.length
  let unfilled := (List.replicate sig.arity false)
  let isFilled := if call.piped.isSome then unfilled.set 0 true else unfilled
  let positions := (List.range call.arguments.length).map (· + paramOffset)
  let isFilled := positions.foldl (fun filled index => filled.set index true) isFilled
  let positional := positions.map fun index => if index < sig.arity then some index else none
  let st := (call.named.map Prod.fst).foldl (mapNamedArgument suggestName fnName sig)
    ⟨isFilled, [], [], true⟩
  let mapping := ⟨positional, st.named⟩
  let effectiveArgs := call.arguments.length + call.named.length + paramOffset
  let minRequired := sig.requiredCount
  if effectiveArgs < minRequired ∨ sig.arity < effectiveArgs then
    let diag := if minRequired = sig.arity then arityMismatch sig.arity effectiveArgs
      else arityMismatchRange minRequired sig.arity effectiveArgs
    (mapping, st.diagnostics ++ [diag])
  else if st.areNamedValid then (mapping, st.diagnostics ++ missingArguments fnName sig st.isFilled)
  else (mapping, st.diagnostics)

end

-- The equations of the definitions are derived here, once for all proofs.
section
attribute [local simp] StackValue.isNone CallExpression.operandBytes bindPositionalArgs
  bindNamedArgs requireAllRequiredArgsBound namedPairs bindArguments bindingRuntime
  handleCallExpression defaultParameterValue defaultParameterValues slotIsNone mapNamedArgument
  missingArguments mapCallArguments
end

end Luma.Vm
