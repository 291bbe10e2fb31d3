-- SUMMARY: How the checker walks a function: scopes, narrowings, and the variables it visits.
import Luma.Library.OrderedMap
import Luma.Syntax.Ast
import Luma.Types.TypeInfo

/-! # Narrowing

A condition `is<T>(x)` narrows `x` while its then-branch is checked. The narrowings in force
are kept on a stack beside the scopes. The checker is written as a program over what it does
to the two, so that it can be run with narrowings that go by the name of a variable, as the
checker's do, and with narrowings that go by the variable. -/

namespace Luma.Narrowing

open Codec

/-! ## Scopes -/

/-- What a scope holds of a variable, ownership apart. -/
structure SymbolInfo where
  type : TypeInfo
  isMutable : Bool

/-- The latest definition of a name comes first. -/
abbrev Scope := List (Bytes × SymbolInfo)

/-- A scope and those around it, innermost first. -/
abbrev Scopes := List Scope

def lookupVariable : Scopes → Bytes → Option SymbolInfo
  | [], _ => none
  | scope :: outer, name =>
    match OrderedMap.lookup name scope with
    | some symbol => some symbol
    | none => lookupVariable outer name

/-- Define a name in the innermost scope. -/
def define (name : Bytes) (symbol : SymbolInfo) : Scopes → Scopes
  | [] => []
  | scope :: outer => ((name, symbol) :: scope) :: outer

/-- How many scopes lie around the one that holds the name. -/
def level : Scopes → Bytes → Option Nat
  | [], _ => none
  | scope :: outer, name =>
    match OrderedMap.lookup name scope with
    | some _ => some outer.length
    | none => level outer name

/-! ## The stack of narrowings -/

/-- `TypeRefinement`: a narrowing by name. -/
structure TypeRefinement where
  variableName : Bytes
  narrowedType : TypeInfo

/-- A narrowing of the variable of a name that is defined at a level. -/
structure VariableNarrowing where
  variableName : Bytes
  level : Option Nat
  narrowedType : TypeInfo

/-- The name and the type alone. -/
def VariableNarrowing.byName (n : VariableNarrowing) : TypeRefinement := ⟨n.variableName, n.narrowedType⟩

/-- What a stack records of a narrowing, and which narrowing it finds for an occurrence of a
    name. The latest narrowing is at the front. -/
structure Discipline (R : Type) where
  entry : Scopes → Bytes → TypeInfo → R
  find : Scopes → List R → Bytes → Option TypeInfo

/-- `TypeRefinementStack`: the most recent narrowing of the name wins. -/
def byName : Discipline TypeRefinement where
  entry _ name narrowed := ⟨name, narrowed⟩
  find _ refinements name :=
    (refinements.find? fun r => r.variableName = name).map TypeRefinement.narrowedType

/-- The most recent narrowing of the variable that the name denotes here wins. A scope that
    was there when the branch was entered does not change inside it, so the level of the
    definition says which variable it is. -/
def byVariable : Discipline VariableNarrowing where
  entry scopes name narrowed := ⟨name, level scopes name, narrowed⟩
  find scopes narrowings name :=
    (narrowings.find? fun n => n.variableName = name ∧ n.level = level scopes name).map
      VariableNarrowing.narrowedType

/-- `mark`. -/
def mark {R : Type} (refinements : List R) : Nat := refinements.length

/-- `pop_to`: back to a depth the stack had before. -/
def popTo {R : Type} (depth : Nat) (refinements : List R) : List R :=
  refinements.drop (refinements.length - depth)

/-! ## The rest of the checker -/

/-- What the walk asks the rest of the checker. The type of an expression that is not a
    variable comes from the types of its parts and the symbols in scope. -/
structure TypeCheckingServices where
  maxExpressionDepth : Nat
  resolveType : TypeAnnotation → TypeInfo
  inferCompound : Scopes → Expression → List TypeInfo → TypeInfo
  isRecord : Bytes → Bool
  isChoice : Bytes → Bool
  /-- The fields of a record that may be created here. -/
  createdFields : Bytes → Option (List Bytes)
  /-- The fields of the record that a `with` copies. -/
  copiedFields : TypeInfo → List Bytes
  /-- The fields of a record with their types, for a value of the given type. -/
  recordFields : Bytes → TypeInfo → Option (List (Bytes × TypeInfo))
  /-- The types of the fields of a variant, for a subject of the given type. -/
  variantFields : (enumType enumVariant : Bytes) → TypeInfo → List TypeInfo

variable (tc : TypeCheckingServices)

/-- `try_extract_is_refinement`: the test of an immutable variable for a known type. -/
def tryExtractIsRefinement (scopes : Scopes) : Expression → Option (Bytes × TypeInfo)
  | .isType targetType (.variable name) =>
    match lookupVariable scopes name with
    | none => none
    | some symbol =>
      -- A mutable variable could be reassigned in the branch.
      if symbol.isMutable then none
      else if (tc.resolveType targetType).kind = .unknown then none
      else some (name, tc.resolveType targetType)
  | _ => none

/-- `visit_variable`. -/
def visitVariable {R : Type} (d : Discipline R) (scopes : Scopes) (refinements : List R)
    (name : Bytes) : TypeInfo :=
  match lookupVariable scopes name with
  | some symbol =>
    match d.find scopes refinements name with
    | some refined => refined
    | none => symbol.type
  | none =>
    if tc.isRecord name then TypeInfo.makeNamed .record name
    else if tc.isChoice name then TypeInfo.makeNamed .choice name
    else TypeInfo.make .unknown

/-! ## Programs over scopes and narrowings -/

/-- What the checker does to the scopes and the narrowings, and what it asks of them. -/
inductive Check : Type → Type 1 where
  | done {α : Type} (result : α) : Check α
  | visit {α : Type} (name : Bytes) (next : TypeInfo → Check α) : Check α
  | inspect {α : Type} (next : Scopes → Check α) : Check α
  | define {α : Type} (name : Bytes) (symbol : SymbolInfo) (next : Check α) : Check α
  /-- A scope of its own for `body`. -/
  | scope {α β : Type} (body : Check β) (next : β → Check α) : Check α
  /-- A scope of its own for the then-branch of a condition, narrowed by it. -/
  | thenBranch {α β : Type} (condition : Expression) (body : Check β) (next : β → Check α) : Check α

namespace Check

def bind {α β : Type} : Check α → (α → Check β) → Check β
  | done result, f => f result
  | visit name next, f => visit name fun type => (next type).bind f
  | inspect next, f => inspect fun scopes => (next scopes).bind f
  | define name symbol next, f => define name symbol (next.bind f)
  | scope body next, f => scope body fun result => (next result).bind f
  | thenBranch condition body next, f => thenBranch condition body fun result => (next result).bind f

instance : Monad Check where
  pure := done
  bind := bind

end Check

/-- An occurrence of a variable, where it was met, and the type it was given. -/
structure Occurrence (R : Type) where
  name : Bytes
  type : TypeInfo
  scopes : Scopes
  refinements : List R

/-- The end of a run: the result, the scopes, and the occurrences on the way. -/
structure Checked (R α : Type) where
  result : α
  scopes : Scopes
  occurrences : List (Occurrence R)

/-- Run a program. What `body` defines is gone with its scope, and what a condition narrows
    with its branch. -/
def Check.run {R α : Type} (d : Discipline R) : Check α → Scopes → List R → Checked R α
  | .done result, scopes, _ => ⟨result, scopes, []⟩
  | .visit name next, scopes, refinements =>
    let type := visitVariable tc d scopes refinements name
    let after := (next type).run d scopes refinements
    { after with occurrences := ⟨name, type, scopes, refinements⟩ :: after.occurrences }
  | .inspect next, scopes, refinements => (next scopes).run d scopes refinements
  | .define name symbol next, scopes, refinements =>
    next.run d (Narrowing.define name symbol scopes) refinements
  | .scope body next, scopes, refinements =>
    let inside := body.run d ([] :: scopes) refinements
    let after := (next inside.result).run d inside.scopes.tail refinements
    { after with occurrences := inside.occurrences ++ after.occurrences }
  | .thenBranch condition body next, scopes, refinements =>
    let narrowed :=
      match tryExtractIsRefinement tc scopes condition with
      | some (name, type) => d.entry scopes name type :: refinements
      | none => refinements
    let inside := body.run d ([] :: scopes) narrowed
    let after := (next inside.result).run d inside.scopes.tail (popTo (mark refinements) narrowed)
    { after with occurrences := inside.occurrences ++ after.occurrences }

/-! ## Bindings -/

/-- Define a variable in the current scope. -/
def defineVariable (name : Bytes) (type : TypeInfo) (isMutable : Bool) : Check Unit :=
  .define name ⟨type, isMutable⟩ (.done ())

def defineVariables (isMutable : Bool) : List (Bytes × TypeInfo) → Check Unit
  | [] => pure ()
  | (name, type) :: more => do
    defineVariable name type isMutable
    defineVariables isMutable more

def openType : TypeInfo := TypeInfo.make .stdlibAny

/-- `bind_arm_names`: the capture of a wrapper pattern. -/
def bindArmNames (subjectType : TypeInfo) : MatchPattern → Check Unit
  | .successResult bindingName =>
    defineVariable bindingName
      (if subjectType.kind = .result then subjectType.innerTypes.head?.getD openType else openType) false
  | .failureResult bindingName =>
    defineVariable bindingName
      (if subjectType.kind = .result then subjectType.innerTypes[1]?.getD openType else openType) false
  | .someCase bindingName =>
    defineVariable bindingName
      (if subjectType.kind = .optional then subjectType.innerTypes.head?.getD openType else openType) false
  | _ => pure ()

/-- `bind_choice_fields`: as many bindings as the variant has fields. -/
def bindChoiceFields (subjectType : TypeInfo) : MatchPattern → Check Unit
  | .choiceCase enumType enumVariant choiceBindings =>
    defineVariables false (choiceBindings.zip (tc.variantFields enumType enumVariant subjectType))
  | _ => pure ()

/-- Each field once, with the type the record gives it. -/
def boundFields (declared : List (Bytes × TypeInfo)) : (seen fields : List Bytes) → List (Bytes × TypeInfo)
  | _, [] => []
  | seen, field :: fields =>
    if field ∈ seen then boundFields declared seen fields
    else (field, (OrderedMap.lookup field declared).getD openType) :: boundFields declared (field :: seen) fields

/-- `bind_record_fields`. -/
def bindRecordFields (recordType : Bytes) (fields : List Bytes) (subjectType : TypeInfo)
    (isMutable : Bool) : Check Unit :=
  match tc.recordFields recordType subjectType with
  | none => defineVariables isMutable (fields.map fun field => (field, openType))
  | some declared => defineVariables isMutable (boundFields declared [] fields)

/-- What the pattern of an arm binds. -/
def bindArm (subjectType : TypeInfo) (pattern : MatchPattern) : Check Unit := do
  bindArmNames subjectType pattern
  bindChoiceFields tc subjectType pattern
  match pattern with
  | .recordCase recordType fieldBindings => bindRecordFields tc recordType fieldBindings subjectType false
  | _ => pure ()

/-- The type of the elements a loop runs over. A dictionary is left to `bindLoop`. -/
def elementType (iterableType : TypeInfo) : TypeInfo :=
  match iterableType.kind with
  | .array => iterableType.innerTypes.head?.getD openType
  | .range => TypeInfo.make .integer
  | .string => TypeInfo.make .string
  | _ => openType

/-- The variables of a `for` loop. -/
def bindLoop (loopVariable indexVariable : Bytes) (destructureVariables : List Bytes)
    (iterableType : TypeInfo) : Check Unit :=
  if iterableType.kind = .dictionary then
    if indexVariable ≠ [] then do
      defineVariable indexVariable (TypeInfo.make .string) false
      defineVariable loopVariable (iterableType.innerTypes.head?.getD openType) false
    else defineVariable loopVariable (TypeInfo.make .string) false
  else if destructureVariables ≠ [] then
    let element := elementType iterableType
    if element.kind = .tuple ∧ element.innerTypes.length = destructureVariables.length then
      defineVariables false (destructureVariables.zip element.innerTypes)
    else defineVariables false (destructureVariables.map fun name => (name, openType))
  else do
    defineVariable loopVariable (elementType iterableType) false
    if indexVariable ≠ [] then defineVariable indexVariable (TypeInfo.make .integer) false

/-- The parameters of a lambda. -/
def bindParameters : List Parameter → Check Unit
  | [] => pure ()
  | .mk type name _ isMutable :: more => do
    defineVariable name (tc.resolveType type) isMutable
    bindParameters more

/-! ## Expressions and statements -/

/-- Programs one after another. -/
def inOrder {α : Type} : List (Check α) → Check (List α)
  | [] => pure []
  | c :: cs => do
    let result ← c
    let results ← inOrder cs
    pure (result :: results)

/-- An expression whose parts have been visited. -/
def compound (e : Expression) (parts : Check (List TypeInfo)) : Check TypeInfo := do
  let types ← parts
  .inspect fun scopes => .done (tc.inferCompound scopes e types)

def isTerminatorStatement : Statement → Bool
  | .returnStatement _ | .breakStatement | .continueStatement => true
  | _ => false

/-- `_ = value` discards the value, unless a mutable `_` is in scope. -/
def isDiscard (scopes : Scopes) : Expression → Bool
  | .variable name =>
    name = bytes "_" && ((lookupVariable scopes name).map SymbolInfo.isMutable).getD false = false
  | _ => false

/-- `check_inc_dec_target`: only a variable is visited. -/
def checkIncDecTarget : Expression → Check TypeInfo
  | .variable name => .visit name fun _ => .done (TypeInfo.make .void)
  | _ => pure (TypeInfo.make .void)

mutual

/-- `infer_expression_type`, with so many levels of nesting left. -/
def inferExpressionType (levels : Nat) (e : Expression) : Check TypeInfo :=
  if levels = 0 then pure (TypeInfo.make .unknown)
  else
    match e with
    | .variable name => .visit name .done
    | .arrayLiteral elements => compound tc (.arrayLiteral elements) (inferExpressions (levels - 1) elements)
    | .await operand => compound tc (.await operand) (inOrder [inferExpressionType (levels - 1) operand])
    | .binary left op right =>
      compound tc (.binary left op right)
        (inOrder [inferExpressionType (levels - 1) left, inferExpressionType (levels - 1) right])
    | .call callee arguments namedArguments typeArguments =>
      compound tc (.call callee arguments namedArguments typeArguments) do
        let argTypes ← inferExpressions (levels - 1) arguments
        let namedArgTypes ← inferNamedArguments (levels - 1) namedArguments
        let calleeType ← inferExpressionType (levels - 1) callee
        pure (argTypes ++ namedArgTypes ++ [calleeType])
    | .dictionaryLiteral entries =>
      compound tc (.dictionaryLiteral entries) do
        let keyTypes ← inferKeys (levels - 1) entries
        let valueTypes ← inferValues (levels - 1) entries
        pure (keyTypes ++ valueTypes)
    | .downcast targetType operand isTrusted =>
      compound tc (.downcast targetType operand isTrusted) (inOrder [inferExpressionType (levels - 1) operand])
    | .errorPipe left right =>
      compound tc (.errorPipe left right)
        (inOrder [inferExpressionType (levels - 1) left, inferExpressionType (levels - 1) right])
    | .failure message => compound tc (.failure message) (inOrder [inferExpressionType (levels - 1) message])
    | .fieldAccess object fieldName isOptional =>
      compound tc (.fieldAccess object fieldName isOptional) (inOrder [inferExpressionType (levels - 1) object])
    | .ifExpression condition thenBranch elseBranch =>
      compound tc (.ifExpression condition thenBranch elseBranch) do
        let condType ← inferExpressionType (levels - 1) condition
        .thenBranch condition (inferBranch (levels - 1) thenBranch) fun thenType =>
          .scope (inferBranch (levels - 1) elseBranch) fun elseType => .done [condType, thenType, elseType]
    | .indexAccess object index isOptional =>
      compound tc (.indexAccess object index isOptional)
        (inOrder [inferExpressionType (levels - 1) object, inferExpressionType (levels - 1) index])
    | .isType targetType operand =>
      compound tc (.isType targetType operand) (inOrder [inferExpressionType (levels - 1) operand])
    | .lambda parameters returnType body =>
      compound tc (.lambda parameters returnType body)
        (.scope (do bindParameters tc parameters; checkLambdaBody (levels - 1) body) .done)
    | .literal value => compound tc (.literal value) (pure [])
    | .matchExpression subject arms =>
      compound tc (.matchExpression subject arms) do
        let subjectType ← inferExpressionType (levels - 1) subject
        checkArms (levels - 1) subjectType true arms
    | .pipe left right =>
      compound tc (.pipe left right)
        (inOrder [inferExpressionType (levels - 1) left, inferExpressionType (levels - 1) right])
    | .range start stop inclusive =>
      compound tc (.range start stop inclusive)
        (inOrder [inferExpressionType (levels - 1) start, inferExpressionType (levels - 1) stop])
    | .recordCreation typeName typeArgs fields =>
      compound tc (.recordCreation typeName typeArgs fields) (
        -- The fields are visited in the order of the declaration.
        inOrder (((tc.createdFields typeName).getD []).filterMap fun name =>
          ((fieldInits (levels - 1) fields).find? fun field => field.1 = name).map Prod.snd))
    | .recordWith base overrides =>
      compound tc (.recordWith base overrides) do
        let baseType ← inferExpressionType (levels - 1) base
        let overrideTypes ← inOrder (((fieldInits (levels - 1) overrides).filter fun field =>
          field.1 ∈ tc.copiedFields baseType).map Prod.snd)
        pure (baseType :: overrideTypes)
    | .someExpression value => compound tc (.someExpression value) (inOrder [inferExpressionType (levels - 1) value])
    | .spawn call => compound tc (.spawn call) (inOrder [inferExpressionType (levels - 1) call])
    | .stringInterpolation parts expressions =>
      compound tc (.stringInterpolation parts expressions) (inferExpressions (levels - 1) expressions)
    | .success value => compound tc (.success value) (inOrder [inferExpressionType (levels - 1) value])
    | .taskScope body =>
      compound tc (.taskScope body) (.scope (checkEach (levels - 1) body) .done)
    | .tupleLiteral elements => compound tc (.tupleLiteral elements) (inferExpressions (levels - 1) elements)
    | .unary op operand => compound tc (.unary op operand) (inOrder [inferExpressionType (levels - 1) operand])

def inferExpressions (levels : Nat) : List Expression → Check (List TypeInfo)
  | [] => pure []
  | e :: es => do
    let type ← inferExpressionType levels e
    let types ← inferExpressions levels es
    pure (type :: types)

def inferNamedArguments (levels : Nat) : List NamedArgument → Check (List TypeInfo)
  | [] => pure []
  | .mk _ value :: more => do
    let type ← inferExpressionType levels value
    let types ← inferNamedArguments levels more
    pure (type :: types)

def inferKeys (levels : Nat) : List DictionaryEntry → Check (List TypeInfo)
  | [] => pure []
  | .mk key _ :: more => do
    let type ← inferExpressionType levels key
    let types ← inferKeys levels more
    pure (type :: types)

def inferValues (levels : Nat) : List DictionaryEntry → Check (List TypeInfo)
  | [] => pure []
  | .mk _ value :: more => do
    let type ← inferExpressionType levels value
    let types ← inferValues levels more
    pure (type :: types)

/-- The visits of the values of the fields, by name. -/
def fieldInits (levels : Nat) : List RecordFieldInit → List (Bytes × Check TypeInfo)
  | [] => []
  | .mk name value :: more => (name, inferExpressionType levels value) :: fieldInits levels more

/-- `infer_assignment_target`. -/
def inferAssignmentTarget (levels : Nat) : Expression → Check (List TypeInfo)
  | .variable name => .visit name fun type => .done [type]
  | .fieldAccess object _ _ => inOrder [inferExpressionType levels object]
  | .indexAccess object index _ => inOrder [inferExpressionType levels object, inferExpressionType levels index]
  | _ => pure []

def inferOption (levels : Nat) : Option Expression → Check (List TypeInfo)
  | none => pure []
  | some e => inOrder [inferExpressionType levels e]

def inferBranch (levels : Nat) : Branch → Check TypeInfo
  | .expression value => inferExpressionType levels value
  | .body statements => inferBlockResult levels statements

/-- The statements of a lambda are checked without regard to what is reachable. -/
def checkLambdaBody (levels : Nat) : Branch → Check (List TypeInfo)
  | .expression value => inOrder [inferExpressionType levels value]
  | .body statements => checkEach levels statements

/-- The expressions that the patterns of an arm compare with. -/
def checkPattern (levels : Nat) : MatchPattern → Check (List TypeInfo)
  | .comparison _ value => inferOption levels value
  | _ => pure []

def checkPatterns (levels : Nat) : List MatchPattern → Check (List TypeInfo)
  | [] => pure []
  | pattern :: patterns => do
    let types ← checkPattern levels pattern
    let more ← checkPatterns levels patterns
    pure (types ++ more)

/-- An arm, whose block is a value or a statement. -/
def checkArm (levels : Nat) (subjectType : TypeInfo) (asValue : Bool) : MatchArm → Check TypeInfo
  | .mk pattern alternatives guard body =>
    .scope (do
      let _ ← checkPattern levels pattern
      let _ ← checkPatterns levels alternatives
      bindArm tc subjectType pattern
      let _ ← inferOption levels guard
      if asValue then inferBlockResult levels body else checkStatementList levels body) .done

def checkArms (levels : Nat) (subjectType : TypeInfo) (asValue : Bool) : List MatchArm → Check (List TypeInfo)
  | [] => pure []
  | arm :: arms => do
    let type ← checkArm levels subjectType asValue arm
    let types ← checkArms levels subjectType asValue arms
    pure (type :: types)

/-- `infer_block_result`: the last statement of a block may be its value. -/
def inferBlockResult (levels : Nat) : List Statement → Check TypeInfo
  | [] => pure (TypeInfo.make .void)
  | [.expression e] => inferExpressionType levels e
  | [.matchStatement subject arms] =>
    compound tc (.matchExpression subject arms) do
      let subjectType ← inferExpressionType levels subject
      checkArms levels subjectType true arms
  | [.ifStatement condition thenBody elseBody] =>
    compound tc (.ifExpression condition (.body thenBody) (.body elseBody)) do
      let condType ← inferExpressionType levels condition
      .thenBranch condition (inferBlockResult levels thenBody) fun thenType =>
        .scope (inferBlockResult levels elseBody) fun elseType => .done [condType, thenType, elseType]
  | stmt :: stmts => do
    let _ ← checkStatement levels stmt
    inferBlockResult levels stmts

/-- A statement. Only an expression statement has a type. -/
def checkStatement (levels : Nat) : Statement → Check TypeInfo
  | .assignment target value =>
    .inspect fun scopes =>
      if isDiscard scopes target then inferExpressionType levels value
      else do
        let _ ← inferAssignmentTarget levels target
        let _ ← inferExpressionType levels value
        pure (TypeInfo.make .void)
  | .block statements => .scope (checkStatementList levels statements) .done
  | .breakStatement => pure (TypeInfo.make .void)
  | .compoundAssignment target _ value => do
    let _ ← inferAssignmentTarget levels target
    let _ ← inferExpressionType levels value
    pure (TypeInfo.make .void)
  | .continueStatement => pure (TypeInfo.make .void)
  | .decrement target => checkIncDecTarget target
  | .expression e => inferExpressionType levels e
  | .forStatement loopVariable indexVariable destructureVariables iterable body =>
    .scope (do
      let iterableType ← inferExpressionType levels iterable
      bindLoop loopVariable indexVariable destructureVariables iterableType
      checkStatementList levels body) .done
  | .ifStatement condition thenBody elseBody => do
    let _ ← inferExpressionType levels condition
    .thenBranch condition (checkStatementList levels thenBody) fun _ =>
      if elseBody.isEmpty then .done (TypeInfo.make .void)
      else .scope (checkStatementList levels elseBody) .done
  | .increment target => checkIncDecTarget target
  | .matchStatement subject arms => do
    let subjectType ← inferExpressionType levels subject
    let _ ← checkArms levels subjectType false arms
    pure (TypeInfo.make .void)
  | .recordDestructuring typeName fields isMutable initializer => do
    let initType ← inferExpressionType levels initializer
    bindRecordFields tc typeName fields initType isMutable
    pure (TypeInfo.make .void)
  | .returnStatement value => do
    let _ ← inferOption levels value
    pure (TypeInfo.make .void)
  | .tryStatement tryBody catchVar catchBody finallyBody =>
    .scope (checkStatementList levels tryBody) fun _ => do
      if !catchBody.isEmpty then
        let _ ← Check.scope (do
          if catchVar ≠ [] then defineVariable catchVar (TypeInfo.make .string) false
          checkStatementList levels catchBody) .done
      if !finallyBody.isEmpty then
        let _ ← Check.scope (checkStatementList levels finallyBody) .done
      pure (TypeInfo.make .void)
  | .tupleDestructuring bindings isMutable initializer => do
    let _ ← inferExpressionType levels initializer
    defineVariables isMutable (bindings.map fun binding => (binding.2, tc.resolveType binding.1))
    pure (TypeInfo.make .void)
  | .variableDeclaration type name isMutable initializer => do
    let _ ← inferOption levels initializer
    defineVariable name (tc.resolveType type) isMutable
    pure (TypeInfo.make .void)
  | .whileStatement condition body => do
    let _ ← inferExpressionType levels condition
    .scope (checkStatementList levels body) .done

/-- The statements up to the first that ends the list. -/
def checkStatementList (levels : Nat) : List Statement → Check TypeInfo
  | [] => pure (TypeInfo.make .void)
  | stmt :: stmts => do
    let _ ← checkStatement levels stmt
    if isTerminatorStatement stmt then pure (TypeInfo.make .void) else checkStatementList levels stmts

/-- All statements, with the types of the expression statements. -/
def checkEach (levels : Nat) : List Statement → Check (List TypeInfo)
  | [] => pure []
  | stmt :: stmts => do
    let type ← checkStatement levels stmt
    let types ← checkEach levels stmts
    pure (type :: types)

end

/-- The parameters of a function, each with its default. -/
def checkParameters : List Parameter → Check Unit
  | [] => pure ()
  | .mk type name defaultValue isMutable :: more => do
    defineVariable name (tc.resolveType type) isMutable
    let _ ← inferOption tc tc.maxExpressionDepth defaultValue
    checkParameters more

/-- `check_function`. -/
def checkFunction (parameters : List Parameter) (body : List Statement) : Check Unit :=
  .scope (do
    checkParameters tc parameters
    checkStatementList tc tc.maxExpressionDepth body) fun _ => .done ()

end Luma.Narrowing
