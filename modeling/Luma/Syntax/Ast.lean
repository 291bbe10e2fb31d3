-- SUMMARY: The syntax trees of expressions and statements.
import Luma.Library.BigEndian
import Luma.Library.Binary64

/-! # Syntax Trees

The trees the parser builds, without source locations. Blocks and expressions contain each
other: a branch of an `if` or an arm of a `match` in value position is a block, and so is the
body of a `task_scope`. -/

namespace Luma

open Codec

/-- The tokens that stand for operators. -/
inductive TokenType where
  | ampersandAmpersand | bang | bangEquals | equalsEquals | greater | greaterEquals
  | greaterGreater | in | less | lessEquals | minus | minusEquals | percent | percentEquals
  | pipePipe | plus | plusEquals | questionMark | questionQuestion | slash | slashEquals
  | slashSlash | slashSlashEquals | star | starEquals
  deriving DecidableEq, Repr

/-- The value of a literal. -/
inductive Literal where
  | boolean (value : Bool)
  | integer (value : Int64)
  | none
  | number (value : Binary64)
  | string (value : Bytes)
  deriving DecidableEq

/-- A type as written. -/
inductive TypeAnnotation where
  | plain (name : Bytes) (typeParams : List TypeAnnotation) (isUnique isBorrow : Bool)
  | tuple (elementTypes : List TypeAnnotation) (isUnique isBorrow : Bool)
  | function (paramTypes : List TypeAnnotation) (returnType : Option TypeAnnotation)
      (isUnique isBorrow : Bool)

mutual

inductive Expression where
  | arrayLiteral (elements : List Expression)
  | await (operand : Expression)
  | binary (left : Expression) (op : TokenType) (right : Expression)
  | call (callee : Expression) (arguments : List Expression)
      (namedArguments : List NamedArgument) (typeArguments : List TypeAnnotation)
  | dictionaryLiteral (entries : List DictionaryEntry)
  | downcast (targetType : TypeAnnotation) (operand : Expression) (isTrusted : Bool)
  | errorPipe (left right : Expression)
  | failure (message : Expression)
  | fieldAccess (object : Expression) (fieldName : Bytes) (isOptional : Bool)
  | ifExpression (condition : Expression) (thenBranch elseBranch : Branch)
  | indexAccess (object index : Expression) (isOptional : Bool)
  | isType (targetType : TypeAnnotation) (operand : Expression)
  | lambda (parameters : List Parameter) (returnType : Option TypeAnnotation) (body : Branch)
  | literal (value : Literal)
  | matchExpression (subject : Expression) (arms : List MatchArm)
  | pipe (left right : Expression)
  | range (start stop : Expression) (inclusive : Bool)
  | recordCreation (typeName : Bytes) (typeArgs : List TypeAnnotation)
      (fields : List RecordFieldInit)
  | recordWith (base : Expression) (overrides : List RecordFieldInit)
  | someExpression (value : Expression)
  | spawn (call : Expression)
  | stringInterpolation (parts : List Bytes) (expressions : List Expression)
  | success (value : Expression)
  | taskScope (body : List Statement)
  | tupleLiteral (elements : List Expression)
  | unary (op : TokenType) (operand : Expression)
  | variable (name : Bytes)

/-- A branch of an `if` expression or the body of a lambda: a block or an expression. -/
inductive Branch where
  | body (statements : List Statement)
  | expression (value : Expression)

inductive NamedArgument where
  | mk (name : Bytes) (value : Expression)

inductive DictionaryEntry where
  | mk (key value : Expression)

inductive RecordFieldInit where
  | mk (name : Bytes) (value : Expression)

inductive Parameter where
  | mk (type : TypeAnnotation) (name : Bytes) (defaultValue : Option Expression)
      (isMutable : Bool)

inductive MatchPattern where
  | booleanCase (value : Bool)
  | choiceCase (enumType enumVariant : Bytes) (choiceBindings : List Bytes)
  | comparison (op : TokenType) (value : Option Expression)
  | elseCase
  | failureResult (bindingName : Bytes)
  | integerCase (value : Int64)
  | integerRangeCase (lo hi : Int64) (inclusive : Bool)
  | noneCase
  | someCase (bindingName : Bytes)
  | stringCase (value : Bytes)
  | successResult (bindingName : Bytes)
  | variantCase (enumType enumVariant : Bytes)
  | recordCase (recordType : Bytes) (fieldBindings : List Bytes)

/-- An arm of a match. The parser gives every arm a block. -/
inductive MatchArm where
  | mk (pattern : MatchPattern) (alternatives : List MatchPattern) (guard : Option Expression)
      (body : List Statement)

inductive Statement where
  | assignment (target value : Expression)
  | block (statements : List Statement)
  | breakStatement
  | compoundAssignment (target : Expression) (op : TokenType) (value : Expression)
  | continueStatement
  | decrement (target : Expression)
  | expression (expression : Expression)
  | forStatement (loopVariable indexVariable : Bytes) (destructureVariables : List Bytes)
      (iterable : Expression) (body : List Statement)
  | ifStatement (condition : Expression) (thenBody elseBody : List Statement)
  | increment (target : Expression)
  | matchStatement (subject : Expression) (arms : List MatchArm)
  | recordDestructuring (typeName : Bytes) (fields : List Bytes) (isMutable : Bool)
      (initializer : Expression)
  | returnStatement (value : Option Expression)
  | tryStatement (tryBody : List Statement) (catchVar : Bytes)
      (catchBody finallyBody : List Statement)
  | tupleDestructuring (bindings : List ( TypeAnnotation × Bytes)) (isMutable : Bool)
      (initializer : Expression)
  | variableDeclaration (type : TypeAnnotation) (name : Bytes) (isMutable : Bool)
      (initializer : Option Expression)
  | whileStatement (condition : Expression) (body : List Statement)

end

namespace NamedArgument

def value : NamedArgument → Expression
  | mk _ value => value

end NamedArgument

namespace DictionaryEntry

def key : DictionaryEntry → Expression
  | mk key _ => key

def value : DictionaryEntry → Expression
  | mk _ value => value

end DictionaryEntry

namespace RecordFieldInit

def value : RecordFieldInit → Expression
  | mk _ value => value

end RecordFieldInit

namespace MatchArm

def pattern : MatchArm → MatchPattern
  | mk pattern _ _ _ => pattern

def alternatives : MatchArm → List MatchPattern
  | mk _ alternatives _ _ => alternatives

def guard : MatchArm → Option Expression
  | mk _ _ guard _ => guard

def body : MatchArm → List Statement
  | mk _ _ _ body => body

def hasGuard (arm : MatchArm) : Bool := arm.guard.isSome

/-- The pattern of the arm and its alternatives. -/
def patterns (arm : MatchArm) : List MatchPattern := arm.pattern :: arm.alternatives

end MatchArm

namespace Literal

/-- Equality of literal values: numbers compare as numbers. -/
def same : Literal → Literal → Bool
  | boolean a, boolean b => a == b
  | integer a, integer b => a == b
  | none, none => true
  | number a, number b => a.ieeeEq b
  | string a, string b => a == b
  | _, _ => false

end Literal

namespace Expression

/-- The value of an integer literal, possibly negated. -/
def getSignedIntegerValue : Expression → Option Int64
  | unary .minus (literal (.integer magnitude)) => some (-magnitude)
  | literal (.integer value) => some value
  | _ => none

/-- A constant that a pattern can compare against. -/
def literalConstant (e : Expression) : Option Literal :=
  match e.getSignedIntegerValue with
  | some value => some (.integer value)
  | none =>
    match e with
    | literal value => some value
    | _ => none

end Expression

end Luma
