-- SUMMARY: What the compiler emits for the control flow around task scopes and handlers.
import Luma.Syntax.Ast

/-! # Compiled Control Flow

The code of a function as far as task scopes and exception handlers can tell: the
instructions that begin and end a scope, install and remove a handler, spawn and call, and
the jumps between them. Everything else is a `simple` instruction. -/

namespace Luma

open Codec

/-- Code by its structure. Jumps are kept as jumps; where they go is a matter of the code
    around them. -/
inductive ScopeCode where
  | skip
  /-- Instructions that touch neither scopes nor handlers. They may raise. -/
  | simple
  | seq (first second : ScopeCode)
  /-- A conditional jump. -/
  | either (left right : ScopeCode)
  /-- Code that is executed some number of times. -/
  | star (body : ScopeCode)
  /-- A loop: the end of the body jumps back, and so does `continueJump`. -/
  | loop (body : ScopeCode)
  | breakJump
  | continueJump
  | returnJump
  /-- TryCatch, the body, TryEnd; the handler runs if the body raises. -/
  | tryCatch (body handler : ScopeCode)
  /-- TryCatch, the body, TryEnd, then the cleanup on every way out. -/
  | tryFinally (body cleanup : ScopeCode)
  /-- TaskScopeBegin, the body, TaskScopeEnd. -/
  | taskScope (body : ScopeCode)
  | spawn
  /-- A call of a function of the program, or of a native function that calls back. -/
  | call
  /-- The defaults of a record's fields, compiled in place. -/
  | fieldDefaults (isMain : Bool) (typeName : Bytes)

namespace ScopeCode

/-- One of several pieces of code, or none. -/
def oneOf : List ScopeCode → ScopeCode
  | [] => skip
  | c :: cs => either c (oneOf cs)

/-- Operands. How many of them are evaluated, and in which order, does not matter to scopes. -/
def operands (cs : List ScopeCode) : ScopeCode := star (oneOf cs)

/-- A loop over elements, or one with its condition. The jump out of it goes where `break`
    goes. -/
def conditionalLoop (condition body : ScopeCode) : ScopeCode :=
  loop (seq condition (either breakJump body))

end ScopeCode

open ScopeCode

mutual

/-- `isMain` says whether the innermost function is the one marked `@main`. -/
def Expression.compile (isMain : Bool) : Expression → ScopeCode
  | .arrayLiteral elements => seq (operands (compileExpressions isMain elements)) simple
  | .await operand => seq (operand.compile isMain) simple
  | .binary left _ right =>
    seq (operands [left.compile isMain, right.compile isMain]) simple
  | .call callee arguments namedArguments _ =>
    seq (operands (callee.compile isMain ::
      (compileExpressions isMain arguments ++ compileNamedArguments isMain namedArguments))) call
  | .dictionaryLiteral entries => seq (operands (compileEntries isMain entries)) simple
  | .downcast _ operand _ => seq (operand.compile isMain) simple
  | .errorPipe left right => seq (operands [left.compile isMain, right.compile isMain]) call
  | .failure message => seq (message.compile isMain) simple
  | .fieldAccess object _ _ => seq (operands [object.compile isMain]) simple
  | .ifExpression condition thenBranch elseBranch =>
    seq (condition.compile isMain) (seq simple
      (either (thenBranch.compile isMain) (elseBranch.compile isMain)))
  | .indexAccess object index _ =>
    seq (operands [object.compile isMain, index.compile isMain]) simple
  | .isType _ operand => seq (operand.compile isMain) simple
  | .lambda .. => simple
  | .literal _ => simple
  | .matchExpression subject arms => seq (subject.compile isMain) (compileArms isMain arms)
  | .pipe left right => seq (operands [left.compile isMain, right.compile isMain]) call
  | .range first last _ => seq (operands [first.compile isMain, last.compile isMain]) simple
  | .recordCreation typeName _ fields =>
    seq (operands (fieldDefaults isMain typeName :: compileFields isMain fields)) simple
  | .recordWith base overrides =>
    seq (operands (base.compile isMain :: compileFields isMain overrides)) simple
  | .someExpression value => seq (value.compile isMain) simple
  | .spawn e => seq (operands [e.compileCallOperands isMain]) spawn
  | .stringInterpolation _ expressions =>
    seq (operands (compileExpressions isMain expressions)) simple
  | .success value => seq (value.compile isMain) simple
  | .taskScope body => taskScope (compileStatements isMain body)
  | .tupleLiteral elements => seq (operands (compileExpressions isMain elements)) simple
  | .unary op operand =>
    seq (operands [operand.compile isMain])
      -- In `@main` a failure has no caller to return to, and raises.
      (if op = .questionMark ∧ ¬ isMain then seq simple (either simple returnJump) else simple)
  | .variable _ => simple

/-- The parts of a call that is made elsewhere. -/
def Expression.compileCallOperands (isMain : Bool) : Expression → ScopeCode
  | .call callee arguments namedArguments _ =>
    operands (callee.compile isMain ::
      (compileExpressions isMain arguments ++ compileNamedArguments isMain namedArguments))
  | _ => skip

def compileExpressions (isMain : Bool) : List Expression → List ScopeCode
  | [] => []
  | e :: es => e.compile isMain :: compileExpressions isMain es

def compileOption (isMain : Bool) : Option Expression → ScopeCode
  | none => simple
  | some e => e.compile isMain

def Branch.compile (isMain : Bool) : Branch → ScopeCode
  | .body statements => compileStatements isMain statements
  | .expression value => value.compile isMain

def NamedArgument.compile (isMain : Bool) : NamedArgument → ScopeCode
  | .mk _ value => value.compile isMain

def compileNamedArguments (isMain : Bool) : List NamedArgument → List ScopeCode
  | [] => []
  | a :: as => a.compile isMain :: compileNamedArguments isMain as

def DictionaryEntry.compile (isMain : Bool) : DictionaryEntry → ScopeCode
  | .mk key value => seq (key.compile isMain) (value.compile isMain)

def compileEntries (isMain : Bool) : List DictionaryEntry → List ScopeCode
  | [] => []
  | a :: as => a.compile isMain :: compileEntries isMain as

def RecordFieldInit.compile (isMain : Bool) : RecordFieldInit → ScopeCode
  | .mk _ value => value.compile isMain

def compileFields (isMain : Bool) : List RecordFieldInit → List ScopeCode
  | [] => []
  | a :: as => a.compile isMain :: compileFields isMain as

def MatchPattern.compile (isMain : Bool) : MatchPattern → ScopeCode
  | .comparison _ value => seq (compileOption isMain value) simple
  | _ => simple

def compilePatterns (isMain : Bool) : List MatchPattern → List ScopeCode
  | [] => []
  | p :: ps => p.compile isMain :: compilePatterns isMain ps

/-- An arm: its patterns, its guard, then its body or what follows. -/
def MatchArm.compile (isMain : Bool) (next : ScopeCode) : MatchArm → ScopeCode
  | .mk pattern alternatives guard body =>
    seq (operands (pattern.compile isMain :: compilePatterns isMain alternatives))
      (seq (operands [compileOption isMain guard])
        (either (compileStatements isMain body) next))

def compileArms (isMain : Bool) : List MatchArm → ScopeCode
  | [] => simple
  | a :: as => a.compile isMain (compileArms isMain as)

def Statement.compile (isMain : Bool) : Statement → ScopeCode
  | .assignment target value =>
    seq (operands [target.compile isMain, value.compile isMain]) simple
  | .block statements => compileStatements isMain statements
  | .breakStatement => breakJump
  | .compoundAssignment target _ value =>
    seq (operands [target.compile isMain, value.compile isMain]) simple
  | .continueStatement => continueJump
  | .decrement target => seq (operands [target.compile isMain]) simple
  | .expression e => e.compile isMain
  | .forStatement _ _ _ iterable body =>
    seq (iterable.compile isMain)
      (seq simple (conditionalLoop simple (compileStatements isMain body)))
  | .ifStatement condition thenBody elseBody =>
    seq (condition.compile isMain) (seq simple
      (either (compileStatements isMain thenBody) (compileStatements isMain elseBody)))
  | .increment target => seq (operands [target.compile isMain]) simple
  | .matchStatement subject arms => seq (subject.compile isMain) (compileArms isMain arms)
  | .recordDestructuring _ _ _ initializer => seq (initializer.compile isMain) simple
  | .returnStatement value => seq (compileOption isMain value) returnJump
  | .tryStatement tryBody catchVar catchBody finallyBody =>
    let body := compileStatements isMain tryBody
    let cleanup := compileStatements isMain finallyBody
    if finallyBody ≠ [] then
      tryFinally
        (if catchVar ≠ [] then tryCatch body (compileStatements isMain catchBody) else body) cleanup
    else if catchVar ≠ [] then tryCatch body (compileStatements isMain catchBody)
    -- Without either clause the error is discarded.
    else tryCatch body skip
  | .tupleDestructuring _ _ initializer => seq (initializer.compile isMain) simple
  | .variableDeclaration _ _ _ initializer => seq (compileOption isMain initializer) simple
  | .whileStatement condition body =>
    conditionalLoop (seq (condition.compile isMain) simple) (compileStatements isMain body)

def compileStatements (isMain : Bool) : List Statement → ScopeCode
  | [] => skip
  | s :: ss => seq (s.compile isMain) (compileStatements isMain ss)

end

/-- A function or lambda: the defaults of its parameters come first. -/
structure Callable where
  isMain : Bool
  defaults : List Expression
  body : Branch

def Callable.compile (f : Callable) : ScopeCode :=
  seq (operands (compileExpressions f.isMain f.defaults)) (f.body.compile f.isMain)

/-- What calls and record creations can reach. -/
structure ScopeProgram where
  callables : List Callable
  recordDefaults : Bytes → List Expression

end Luma
