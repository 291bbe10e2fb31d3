-- SUMMARY: Which statement lists are taken to return on every path.
import Luma.Analysis.MatchExhaustiveness

/-! # Return Paths

`definitelyReturns` decides whether a function can fall off its end. A `while true` counts if
its body returns and no `break` leaves it; `bodyCanBreak` looks for that `break` in the
statements of the body, and `jumpsOut` in its expressions as well. -/

namespace Luma

open Codec

namespace ReturnAnalysis

/-- What the analysis asks the type checker: the declared choices, whether a name stands for a
    namespace of the standard library, and whether a function of the library is catalogued as
    one that never returns. -/
structure Checker where
  choices : ChoiceTable
  isStdlibNamespace : Bytes → Bool
  neverReturns : Bytes → Bool

def makeQualified (module name : Bytes) : Bytes := module ++ TypePattern.dot :: name

/-- The call of an expression statement, also at the end of a pipe. -/
def calledExpression : Expression → Expression
  | .pipe _ right => right
  | e => e

def isNeverReturningCall (tc : Checker) (e : Expression) : Bool :=
  match calledExpression e with
  | .call (.fieldAccess (.variable module) fieldName _) _ _ _ =>
    tc.isStdlibNamespace module && tc.neverReturns (makeQualified module fieldName)
  | _ => false

/-! ## The analysis -/

mutual

/-- Does the statement end every path that reaches it? -/
def statementReturns (tc : Checker) : Statement → Bool
  | .returnStatement _ => true
  | .expression e => isNeverReturningCall tc e
  | .ifStatement _ thenBody elseBody =>
    !elseBody.isEmpty && definitelyReturns tc thenBody && definitelyReturns tc elseBody
  | .block statements => definitelyReturns tc statements
  | .whileStatement (.literal (.boolean true)) body =>
    !bodyCanBreak tc body && definitelyReturns tc body
  | .tryStatement tryBody _ catchBody _ =>
    definitelyReturns tc tryBody && (catchBody.isEmpty || definitelyReturns tc catchBody)
  | .matchStatement _ arms =>
    MatchExhaustiveness.isExhaustive tc.choices arms && armsReturn tc arms
  | _ => false

def definitelyReturns (tc : Checker) : List Statement → Bool
  | [] => false
  | stmt :: stmts => statementReturns tc stmt || definitelyReturns tc stmts

def armsReturn (tc : Checker) : List MatchArm → Bool
  | [] => true
  | arm :: arms => armReturns tc arm && armsReturn tc arms

def armReturns (tc : Checker) : MatchArm → Bool
  | .mk _ _ _ body => definitelyReturns tc body

/-- Does the statement hold a `break` of the enclosing loop? -/
def statementCanBreak (tc : Checker) : Statement → Bool
  | .breakStatement => true
  | .ifStatement _ thenBody elseBody => bodyCanBreak tc thenBody || bodyCanBreak tc elseBody
  | .block statements => bodyCanBreak tc statements
  | .matchStatement _ arms => armsCanBreak tc arms
  | .tryStatement tryBody _ catchBody finallyBody =>
    bodyCanBreak tc tryBody || bodyCanBreak tc catchBody || bodyCanBreak tc finallyBody
  | _ => false

/-- The scan stops after a statement that returns: what follows is never reached. -/
def bodyCanBreak (tc : Checker) : List Statement → Bool
  | [] => false
  | stmt :: stmts =>
    statementCanBreak tc stmt || (!statementReturns tc stmt && bodyCanBreak tc stmts)

def armsCanBreak (tc : Checker) : List MatchArm → Bool
  | [] => false
  | arm :: arms => armCanBreak tc arm || armsCanBreak tc arms

def armCanBreak (tc : Checker) : MatchArm → Bool
  | .mk _ _ _ body => bodyCanBreak tc body

end

/-- The check at the end of a function: a declared type that has values demands that the body
    returns on every path. -/
def mayFallThrough (tc : Checker) (returnType : TypeInfo) (body : List Statement) : Bool :=
  returnType.kind ≠ .void ∧ returnType.kind ≠ .stdlibAny ∧ returnType.kind ≠ .unknown ∧
    !definitelyReturns tc body

end ReturnAnalysis

/-! ## Jumps anywhere in a statement -/

/-- The statements that jump out of a loop. -/
inductive LoopJump where
  | breakJump | continueJump
  deriving DecidableEq, Repr

section Jumps

variable (which : LoopJump → Bool) (stop : Statement → Bool)

mutual

/-- Can a jump of a kind in `which` leave the expression? A list is searched up to the first
    statement that satisfies `stop`. The body of a lambda is a function of its own. -/
def Expression.jumpsOut : Expression → Bool
  | .arrayLiteral elements => expressionsJumpOut elements
  | .await operand => operand.jumpsOut
  | .binary left _ right => left.jumpsOut || right.jumpsOut
  | .call callee arguments namedArguments _ =>
    callee.jumpsOut || expressionsJumpOut arguments || namedArgumentsJumpOut namedArguments
  | .dictionaryLiteral entries => entriesJumpOut entries
  | .downcast _ operand _ => operand.jumpsOut
  | .errorPipe left right => left.jumpsOut || right.jumpsOut
  | .failure message => message.jumpsOut
  | .fieldAccess object _ _ => object.jumpsOut
  | .ifExpression condition thenBranch elseBranch =>
    condition.jumpsOut || thenBranch.jumpsOut || elseBranch.jumpsOut
  | .indexAccess object index _ => object.jumpsOut || index.jumpsOut
  | .isType _ operand => operand.jumpsOut
  | .lambda .. => false
  | .literal _ => false
  | .matchExpression subject arms => subject.jumpsOut || armsJumpOut arms
  | .pipe left right => left.jumpsOut || right.jumpsOut
  | .range first last _ => first.jumpsOut || last.jumpsOut
  | .recordCreation _ _ fields => fieldsJumpOut fields
  | .recordWith base overrides => base.jumpsOut || fieldsJumpOut overrides
  | .someExpression value => value.jumpsOut
  | .spawn call => call.jumpsOut
  | .stringInterpolation _ expressions => expressionsJumpOut expressions
  | .success value => value.jumpsOut
  | .taskScope body => statementsJumpOut body
  | .tupleLiteral elements => expressionsJumpOut elements
  | .unary _ operand => operand.jumpsOut
  | .variable _ => false

def expressionsJumpOut : List Expression → Bool
  | [] => false
  | e :: es => e.jumpsOut || expressionsJumpOut es

def optionJumpsOut : Option Expression → Bool
  | none => false
  | some e => e.jumpsOut

def Branch.jumpsOut : Branch → Bool
  | .body statements => statementsJumpOut statements
  | .expression value => value.jumpsOut

def NamedArgument.jumpsOut : NamedArgument → Bool
  | .mk _ value => value.jumpsOut

def namedArgumentsJumpOut : List NamedArgument → Bool
  | [] => false
  | a :: as => a.jumpsOut || namedArgumentsJumpOut as

def DictionaryEntry.jumpsOut : DictionaryEntry → Bool
  | .mk key value => key.jumpsOut || value.jumpsOut

def entriesJumpOut : List DictionaryEntry → Bool
  | [] => false
  | a :: as => a.jumpsOut || entriesJumpOut as

def RecordFieldInit.jumpsOut : RecordFieldInit → Bool
  | .mk _ value => value.jumpsOut

def fieldsJumpOut : List RecordFieldInit → Bool
  | [] => false
  | a :: as => a.jumpsOut || fieldsJumpOut as

def MatchPattern.jumpsOut : MatchPattern → Bool
  | .comparison _ value => optionJumpsOut value
  | _ => false

def patternsJumpOut : List MatchPattern → Bool
  | [] => false
  | p :: ps => p.jumpsOut || patternsJumpOut ps

def MatchArm.jumpsOut : MatchArm → Bool
  | .mk pattern alternatives guard body =>
    pattern.jumpsOut || patternsJumpOut alternatives || optionJumpsOut guard ||
      statementsJumpOut body

def armsJumpOut : List MatchArm → Bool
  | [] => false
  | a :: as => a.jumpsOut || armsJumpOut as

/-- A jump in a loop stays in that loop, but for one in the iterable of a `for`. -/
def Statement.jumpsOut : Statement → Bool
  | .assignment target value => target.jumpsOut || value.jumpsOut
  | .block statements => statementsJumpOut statements
  | .breakStatement => which .breakJump
  | .compoundAssignment target _ value => target.jumpsOut || value.jumpsOut
  | .continueStatement => which .continueJump
  | .decrement target => target.jumpsOut
  | .expression e => e.jumpsOut
  | .forStatement _ _ _ iterable _ => iterable.jumpsOut
  | .ifStatement condition thenBody elseBody =>
    condition.jumpsOut || statementsJumpOut thenBody || statementsJumpOut elseBody
  | .increment target => target.jumpsOut
  | .matchStatement subject arms => subject.jumpsOut || armsJumpOut arms
  | .recordDestructuring _ _ _ initializer => initializer.jumpsOut
  | .returnStatement value => optionJumpsOut value
  | .tryStatement tryBody _ catchBody finallyBody =>
    statementsJumpOut tryBody || statementsJumpOut catchBody || statementsJumpOut finallyBody
  | .tupleDestructuring _ _ initializer => initializer.jumpsOut
  | .variableDeclaration _ _ _ initializer => optionJumpsOut initializer
  | .whileStatement .. => false

def statementsJumpOut : List Statement → Bool
  | [] => false
  | stmt :: stmts => stmt.jumpsOut || (!stop stmt && statementsJumpOut stmts)

end

-- The equations of the definitions are derived here, once for all proofs.
section
attribute [local simp] Expression.jumpsOut expressionsJumpOut optionJumpsOut Branch.jumpsOut
  NamedArgument.jumpsOut namedArgumentsJumpOut
  DictionaryEntry.jumpsOut entriesJumpOut RecordFieldInit.jumpsOut fieldsJumpOut MatchPattern.jumpsOut patternsJumpOut
  MatchArm.jumpsOut armsJumpOut Statement.jumpsOut statementsJumpOut
end

end Jumps

end Luma
