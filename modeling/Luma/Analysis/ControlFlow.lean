-- SUMMARY: How statements and expressions can end when they are run.
import Luma.Analysis.Returns

/-! # Control Flow

`Runs env code o` says that `code` can end with `o`. Values other than constants are not
computed: `env.yields` says which ones an expression can have. Everything that decides where
control goes is followed: conditions, arms and their guards, loops, and handlers. -/

namespace Luma

open Codec

namespace ControlFlow

/-- Which values expressions can have, what references hold, and the nesting limit of type
    tests. -/
structure Environment where
  yields : Expression → Value → Prop
  referent : Nat → Value
  maxCallDepth : Nat

/-- The pieces of code that are run. -/
inductive Code where
  | statement (s : Statement)
  | statements (ss : List Statement)
  | expression (e : Expression)
  | operands (es : List Expression)
  | branch (b : Branch)
  | arms (v : Value) (as : List MatchArm)
  | patterns (v : Value) (ps : List MatchPattern)
  | iterations (body : List Statement)

/-- How a piece of code ends: at its end, with a value, with the answer of a test, past the
    last arm of a match, or by leaving. -/
inductive Outcome where
  | normal
  | value (v : Value)
  | tested (b : Bool)
  | unmatched
  | broke
  | continued
  | returned
  | raised

/-- Does control leave the code around? -/
def Outcome.Leaves : Outcome → Prop
  | broke | continued | returned | raised => True
  | _ => False

/-- A clean-up body that reaches its end lets the earlier outcome stand. -/
def Outcome.after (o : Outcome) : Outcome → Outcome
  | normal => o
  | o' => o'

def Outcome.ofJump : LoopJump → Outcome
  | .breakJump => broke
  | .continueJump => continued

end ControlFlow

/-! ## Parts that are evaluated one after another -/

namespace Expression

/-- The parts of a call that is made elsewhere in the expression, or the expression itself. -/
def callOperands : Expression → List Expression
  | call callee arguments namedArguments _ =>
    callee :: arguments ++ namedArguments.map NamedArgument.value
  | e => [e]

/-- The operands of an expression without control flow of its own. -/
def operands : Expression → Option (List Expression)
  | arrayLiteral elements => some elements
  | await operand => some [operand]
  | binary left _ right => some [left, right]
  | call callee arguments namedArguments typeArguments =>
    some (call callee arguments namedArguments typeArguments).callOperands
  | dictionaryLiteral entries => some (entries.flatMap fun entry => [entry.key, entry.value])
  | downcast _ operand _ => some [operand]
  | errorPipe left right => some (left :: right.callOperands)
  | failure message => some [message]
  | fieldAccess object _ _ => some [object]
  | ifExpression .. => none
  | indexAccess object index _ => some [object, index]
  | isType _ operand => some [operand]
  | lambda .. => some []
  | literal _ => some []
  | matchExpression .. => none
  | pipe left right => some (left :: right.callOperands)
  | range start stop _ => some [start, stop]
  | recordCreation _ _ fields => some (fields.map RecordFieldInit.value)
  | recordWith base overrides => some (base :: overrides.map RecordFieldInit.value)
  | someExpression value => some [value]
  | spawn e => some e.callOperands
  | stringInterpolation _ expressions => some expressions
  | success value => some [value]
  | taskScope _ => none
  | tupleLiteral elements => some elements
  | unary _ operand => some [operand]
  | .variable _ => some []

end Expression

/-- The operands of a statement without control flow of its own. -/
def Statement.operands : Statement → Option (List Expression)
  | .assignment target value => some [target, value]
  | .compoundAssignment target _ value => some [target, value]
  | .decrement target => some [target]
  | .expression e => some [e]
  | .increment target => some [target]
  | .recordDestructuring _ _ _ initializer => some [initializer]
  | .tupleDestructuring _ _ initializer => some [initializer]
  | .variableDeclaration _ _ _ initializer => some initializer.toList
  | _ => none

def MatchPattern.operands : MatchPattern → List Expression
  | .comparison _ (some value) => [value]
  | _ => []

/-! ## Running -/

namespace ControlFlow

open Code Outcome

/-- What comes of leaving a `try` body when the machine has looked at its handler. A clause
    with a name is a handler; without one, an error passes only through a body of `finally`
    that has statements. -/
inductive Handled (catchVar : Bytes) (finallyBody : List Statement) : Outcome → Outcome → Prop where
  | passes {o : Outcome} (h : o ≠ raised) : Handled catchVar finallyBody o o
  | rethrown (hcatch : catchVar = []) (hfinally : finallyBody ≠ []) :
      Handled catchVar finallyBody raised raised
  | discarded (hcatch : catchVar = []) (hfinally : finallyBody = []) :
      Handled catchVar finallyBody raised normal

inductive Runs (env : Environment) : Code → Outcome → Prop where
  -- Lists of statements.
  | statementsNil : Runs env (statements []) normal
  | statementsCons {s : Statement} {ss : List Statement} {o : Outcome}
      (h : Runs env (statement s) normal) (hs : Runs env (statements ss) o) :
      Runs env (statements (s :: ss)) o
  | statementsStop {s : Statement} {ss : List Statement} {o : Outcome}
      (h : Runs env (statement s) o) (ho : o.Leaves) : Runs env (statements (s :: ss)) o
  -- Operands.
  | operandsNil : Runs env (operands []) normal
  | operandsCons {e : Expression} {es : List Expression} {v : Value} {o : Outcome}
      (h : Runs env (expression e) (value v)) (hs : Runs env (operands es) o) :
      Runs env (operands (e :: es)) o
  | operandsStop {e : Expression} {es : List Expression} {o : Outcome}
      (h : Runs env (expression e) o) (ho : o.Leaves) : Runs env (operands (e :: es)) o
  -- Statements.
  | simple {s : Statement} {es : List Expression} (hes : s.operands = some es)
      (h : Runs env (operands es) normal) : Runs env (statement s) normal
  | simpleRaises {s : Statement} {es : List Expression} (hes : s.operands = some es)
      (h : Runs env (operands es) normal) : Runs env (statement s) raised
  | simpleStop {s : Statement} {es : List Expression} {o : Outcome}
      (hes : s.operands = some es) (h : Runs env (operands es) o) (ho : o.Leaves) :
      Runs env (statement s) o
  | breaks : Runs env (statement .breakStatement) broke
  | continues : Runs env (statement .continueStatement) continued
  | returns {e : Option Expression} (h : Runs env (operands e.toList) normal) :
      Runs env (statement (.returnStatement e)) returned
  | returnStop {e : Option Expression} {o : Outcome} (h : Runs env (operands e.toList) o)
      (ho : o.Leaves) : Runs env (statement (.returnStatement e)) o
  | block {ss : List Statement} {o : Outcome} (h : Runs env (statements ss) o) :
      Runs env (statement (.block ss)) o
  | ifRuns {c : Expression} {v : Value} {thenBody elseBody : List Statement} {o : Outcome}
      (h : Runs env (expression c) (value v))
      (hb : Runs env (statements (if v.isTruthy then thenBody else elseBody)) o) :
      Runs env (statement (.ifStatement c thenBody elseBody)) o
  | ifStop {c : Expression} {thenBody elseBody : List Statement} {o : Outcome}
      (h : Runs env (expression c) o) (ho : o.Leaves) :
      Runs env (statement (.ifStatement c thenBody elseBody)) o
  | matchRuns {subject : Expression} {v : Value} {as : List MatchArm} {o : Outcome}
      (h : Runs env (expression subject) (value v)) (ha : Runs env (arms v as) o)
      (ho : o ≠ unmatched) : Runs env (statement (.matchStatement subject as)) o
  | matchPasses {subject : Expression} {v : Value} {as : List MatchArm}
      (h : Runs env (expression subject) (value v)) (ha : Runs env (arms v as) unmatched) :
      Runs env (statement (.matchStatement subject as)) normal
  | matchStop {subject : Expression} {as : List MatchArm} {o : Outcome}
      (h : Runs env (expression subject) o) (ho : o.Leaves) :
      Runs env (statement (.matchStatement subject as)) o
  -- Loops. A jump in the condition of a `while` is one of that loop; one in the iterable of a
  -- `for` is not.
  | whileEnds {c : Expression} {v : Value} {body : List Statement}
      (h : Runs env (expression c) (value v)) (hv : v.isTruthy = false) :
      Runs env (statement (.whileStatement c body)) normal
  | whileAgain {c : Expression} {v : Value} {body : List Statement} {o o' : Outcome}
      (h : Runs env (expression c) (value v)) (hv : v.isTruthy = true)
      (hb : Runs env (statements body) o) (ho : o = normal ∨ o = continued)
      (hw : Runs env (statement (.whileStatement c body)) o') :
      Runs env (statement (.whileStatement c body)) o'
  | whileBreaks {c : Expression} {v : Value} {body : List Statement}
      (h : Runs env (expression c) (value v)) (hv : v.isTruthy = true)
      (hb : Runs env (statements body) broke) :
      Runs env (statement (.whileStatement c body)) normal
  | whileStop {c : Expression} {v : Value} {body : List Statement} {o : Outcome}
      (h : Runs env (expression c) (value v)) (hv : v.isTruthy = true)
      (hb : Runs env (statements body) o) (ho : o = returned ∨ o = raised) :
      Runs env (statement (.whileStatement c body)) o
  | conditionBreaks {c : Expression} {body : List Statement}
      (h : Runs env (expression c) broke) : Runs env (statement (.whileStatement c body)) normal
  | conditionContinues {c : Expression} {body : List Statement} {o : Outcome}
      (h : Runs env (expression c) continued)
      (hw : Runs env (statement (.whileStatement c body)) o) :
      Runs env (statement (.whileStatement c body)) o
  | conditionStop {c : Expression} {body : List Statement} {o : Outcome}
      (h : Runs env (expression c) o) (ho : o = returned ∨ o = raised) :
      Runs env (statement (.whileStatement c body)) o
  | forRuns {loopVariable indexVariable : Bytes} {destructureVariables : List Bytes}
      {iterable : Expression} {v : Value} {body : List Statement} {o : Outcome}
      (h : Runs env (expression iterable) (value v)) (hb : Runs env (iterations body) o) :
      Runs env (statement
        (.forStatement loopVariable indexVariable destructureVariables iterable body)) o
  | forStop {loopVariable indexVariable : Bytes} {destructureVariables : List Bytes}
      {iterable : Expression} {body : List Statement} {o : Outcome}
      (h : Runs env (expression iterable) o) (ho : o.Leaves) :
      Runs env (statement
        (.forStatement loopVariable indexVariable destructureVariables iterable body)) o
  | iterationsEnd {body : List Statement} : Runs env (iterations body) normal
  | iterationsRaise {body : List Statement} : Runs env (iterations body) raised
  | iterationsAgain {body : List Statement} {o o' : Outcome} (hb : Runs env (statements body) o)
      (ho : o = normal ∨ o = continued) (hi : Runs env (iterations body) o') :
      Runs env (iterations body) o'
  | iterationsBreak {body : List Statement} (hb : Runs env (statements body) broke) :
      Runs env (iterations body) normal
  | iterationsStop {body : List Statement} {o : Outcome} (hb : Runs env (statements body) o)
      (ho : o = returned ∨ o = raised) : Runs env (iterations body) o
  -- Handlers. A `finally` body that ends by leaving replaces what came before it.
  | tryPasses {tryBody catchBody finallyBody : List Statement} {catchVar : Bytes}
      {o o' o'' : Outcome} (h : Runs env (statements tryBody) o)
      (hh : Handled catchVar finallyBody o o') (hf : Runs env (statements finallyBody) o'') :
      Runs env (statement (.tryStatement tryBody catchVar catchBody finallyBody))
        (o'.after o'')
  | tryCatches {tryBody catchBody finallyBody : List Statement} {catchVar : Bytes}
      {o o' : Outcome} (h : Runs env (statements tryBody) raised) (hcatch : catchVar ≠ [])
      (hc : Runs env (statements catchBody) o) (hf : Runs env (statements finallyBody) o') :
      Runs env (statement (.tryStatement tryBody catchVar catchBody finallyBody))
        (o.after o')
  -- Arms, in order.
  | armsNil {v : Value} : Runs env (arms v []) unmatched
  | armElse {v : Value} {arm : MatchArm} {as : List MatchArm} {o : Outcome}
      (hk : arm.kind = .elseCase) (hb : Runs env (statements arm.body) o) :
      Runs env (arms v (arm :: as)) o
  | armTaken {v : Value} {arm : MatchArm} {as : List MatchArm} {o : Outcome}
      (hk : arm.kind ≠ .elseCase) (ht : Runs env (patterns v arm.patterns) (tested true))
      (hg : arm.guard = none) (hb : Runs env (statements arm.body) o) :
      Runs env (arms v (arm :: as)) o
  | armGuarded {v w : Value} {arm : MatchArm} {as : List MatchArm} {g : Expression}
      {o : Outcome} (hk : arm.kind ≠ .elseCase)
      (ht : Runs env (patterns v arm.patterns) (tested true)) (hg : arm.guard = some g)
      (hw : Runs env (expression g) (value w)) (hw' : w.isTruthy = true)
      (hb : Runs env (statements arm.body) o) : Runs env (arms v (arm :: as)) o
  | armRefused {v w : Value} {arm : MatchArm} {as : List MatchArm} {g : Expression}
      {o : Outcome} (hk : arm.kind ≠ .elseCase)
      (ht : Runs env (patterns v arm.patterns) (tested true)) (hg : arm.guard = some g)
      (hw : Runs env (expression g) (value w)) (hw' : w.isTruthy = false)
      (ha : Runs env (arms v as) o) : Runs env (arms v (arm :: as)) o
  | guardStop {v : Value} {arm : MatchArm} {as : List MatchArm} {g : Expression} {o : Outcome}
      (hk : arm.kind ≠ .elseCase) (ht : Runs env (patterns v arm.patterns) (tested true))
      (hg : arm.guard = some g) (hw : Runs env (expression g) o) (ho : o.Leaves) :
      Runs env (arms v (arm :: as)) o
  | armRaises {v : Value} {arm : MatchArm} {as : List MatchArm} (hk : arm.kind ≠ .elseCase)
      (ht : Runs env (patterns v arm.patterns) (tested true)) :
      Runs env (arms v (arm :: as)) raised
  | armSkipped {v : Value} {arm : MatchArm} {as : List MatchArm} {o : Outcome}
      (hk : arm.kind ≠ .elseCase) (ht : Runs env (patterns v arm.patterns) (tested false))
      (ha : Runs env (arms v as) o) : Runs env (arms v (arm :: as)) o
  | armStop {v : Value} {arm : MatchArm} {as : List MatchArm} {o : Outcome}
      (hk : arm.kind ≠ .elseCase) (ht : Runs env (patterns v arm.patterns) o) (ho : o.Leaves) :
      Runs env (arms v (arm :: as)) o
  | patternsNil {v : Value} : Runs env (patterns v []) (tested false)
  | patternDecides {v : Value} {p : MatchPattern} {ps : List MatchPattern}
      (hp : p.answer env.referent env.maxCallDepth v = some true) :
      Runs env (patterns v (p :: ps)) (tested true)
  | patternRefuses {v : Value} {p : MatchPattern} {ps : List MatchPattern} {o : Outcome}
      (hp : p.answer env.referent env.maxCallDepth v = some false)
      (hs : Runs env (patterns v ps) o) : Runs env (patterns v (p :: ps)) o
  | patternHolds {v : Value} {p : MatchPattern} {ps : List MatchPattern}
      (hp : p.answer env.referent env.maxCallDepth v = none)
      (he : Runs env (operands p.operands) normal) : Runs env (patterns v (p :: ps)) (tested true)
  | patternFails {v : Value} {p : MatchPattern} {ps : List MatchPattern} {o : Outcome}
      (hp : p.answer env.referent env.maxCallDepth v = none)
      (he : Runs env (operands p.operands) normal) (hs : Runs env (patterns v ps) o) :
      Runs env (patterns v (p :: ps)) o
  | patternRaises {v : Value} {p : MatchPattern} {ps : List MatchPattern}
      (hp : p.answer env.referent env.maxCallDepth v = none)
      (he : Runs env (operands p.operands) normal) : Runs env (patterns v (p :: ps)) raised
  | patternStop {v : Value} {p : MatchPattern} {ps : List MatchPattern} {o : Outcome}
      (hp : p.answer env.referent env.maxCallDepth v = none)
      (he : Runs env (operands p.operands) o) (ho : o.Leaves) :
      Runs env (patterns v (p :: ps)) o
  -- Expressions.
  | constant {e : Expression} {c : Literal} (hc : e.literalConstant = some c) :
      Runs env (expression e) (value c.toValue)
  | compound {e : Expression} {es : List Expression} {k : Nat} {v : Value}
      (hc : e.literalConstant = none) (hes : e.operands = some es)
      (h : Runs env (operands (es.take k)) normal) (hv : env.yields e v) :
      Runs env (expression e) (value v)
  | compoundRaises {e : Expression} {es : List Expression} {k : Nat}
      (hc : e.literalConstant = none) (hes : e.operands = some es)
      (h : Runs env (operands (es.take k)) normal) : Runs env (expression e) raised
  | compoundStop {e : Expression} {es : List Expression} {o : Outcome}
      (hc : e.literalConstant = none) (hes : e.operands = some es)
      (h : Runs env (operands es) o) (ho : o.Leaves) : Runs env (expression e) o
  | propagates {operand : Expression} {v : Value} (h : Runs env (expression operand) (value v)) :
      Runs env (expression (.unary .questionMark operand)) returned
  | branchBody {ss : List Statement} {o : Outcome} (h : Runs env (statements ss) o) :
      Runs env (branch (.body ss)) o
  | branchValue {e : Expression} {v : Value} (h : Runs env (expression e) (value v)) :
      Runs env (branch (.expression e)) normal
  | branchStop {e : Expression} {o : Outcome} (h : Runs env (expression e) o) (ho : o.Leaves) :
      Runs env (branch (.expression e)) o
  | ifValue {c : Expression} {v w : Value} {thenBranch elseBranch : Branch}
      (h : Runs env (expression c) (value v))
      (hb : Runs env (branch (if v.isTruthy then thenBranch else elseBranch)) normal)
      (hw : env.yields (.ifExpression c thenBranch elseBranch) w) :
      Runs env (expression (.ifExpression c thenBranch elseBranch)) (value w)
  | ifLeaves {c : Expression} {v : Value} {thenBranch elseBranch : Branch} {o : Outcome}
      (h : Runs env (expression c) (value v))
      (hb : Runs env (branch (if v.isTruthy then thenBranch else elseBranch)) o)
      (ho : o.Leaves) : Runs env (expression (.ifExpression c thenBranch elseBranch)) o
  | ifConditionStop {c : Expression} {thenBranch elseBranch : Branch} {o : Outcome}
      (h : Runs env (expression c) o) (ho : o.Leaves) :
      Runs env (expression (.ifExpression c thenBranch elseBranch)) o
  | matchValue {subject : Expression} {v w : Value} {as : List MatchArm} {o : Outcome}
      (h : Runs env (expression subject) (value v)) (ha : Runs env (arms v as) o)
      (ho : ¬ o.Leaves) (hw : env.yields (.matchExpression subject as) w) :
      Runs env (expression (.matchExpression subject as)) (value w)
  | matchLeaves {subject : Expression} {v : Value} {as : List MatchArm} {o : Outcome}
      (h : Runs env (expression subject) (value v)) (ha : Runs env (arms v as) o)
      (ho : o.Leaves) : Runs env (expression (.matchExpression subject as)) o
  | matchSubjectStop {subject : Expression} {as : List MatchArm} {o : Outcome}
      (h : Runs env (expression subject) o) (ho : o.Leaves) :
      Runs env (expression (.matchExpression subject as)) o
  | scopeValue {body : List Statement} {w : Value} (h : Runs env (statements body) normal)
      (hw : env.yields (.taskScope body) w) : Runs env (expression (.taskScope body)) (value w)
  | scopeRaises {body : List Statement} (h : Runs env (statements body) normal) :
      Runs env (expression (.taskScope body)) raised
  | scopeLeaves {body : List Statement} {o : Outcome} (h : Runs env (statements body) o)
      (ho : o.Leaves) : Runs env (expression (.taskScope body)) o

end ControlFlow

end Luma
