-- SUMMARY: A list that is taken to return on every path never reaches its end.
import Mathlib.Logic.Relation
import Luma.Analysis.ControlFlow

/-! # Soundness of the Return Analysis

Each verdict of the analysis holds if the statement it is about means what the analysis takes
it for: a `try` handles its errors as its clauses read, no `break` is hidden in an expression
of a loop, the subject of an exhaustive match is of the kind its patterns enumerate. -/

namespace Luma

namespace ControlFlow

open Codec ReturnAnalysis Code Outcome

-- The equations of the analyses are derived here, once for all proofs.
section
attribute [local simp] Expression.operands Statement.operands ReturnAnalysis.statementReturns
  ReturnAnalysis.definitelyReturns
  ReturnAnalysis.armsReturn Value.isTruthy Expression.literalConstant Expression.getSignedIntegerValue MatchPattern.operands
  Expression.callOperands Outcome.after Outcome.ofJump
end

/-! ## Parts of a piece of code -/

/-- The second piece of code is run as part of the first. -/
inductive Part : Code → Code → Prop where
  | statementsHead {s : Statement} {ss : List Statement} :
      Part (statements (s :: ss)) (statement s)
  | statementsTail {s : Statement} {ss : List Statement} :
      Part (statements (s :: ss)) (statements ss)
  | operandsHead {e : Expression} {es : List Expression} :
      Part (operands (e :: es)) (expression e)
  | operandsTail {e : Expression} {es : List Expression} :
      Part (operands (e :: es)) (operands es)
  | simple {s : Statement} {es : List Expression} (hes : s.operands = some es) :
      Part (statement s) (operands es)
  | returned {e : Option Expression} : Part (statement (.returnStatement e)) (operands e.toList)
  | block {ss : List Statement} : Part (statement (.block ss)) (statements ss)
  | condition {c : Expression} {thenBody elseBody : List Statement} :
      Part (statement (.ifStatement c thenBody elseBody)) (expression c)
  | body {c : Expression} {b : Bool} {thenBody elseBody : List Statement} :
      Part (statement (.ifStatement c thenBody elseBody))
        (statements (if b then thenBody else elseBody))
  | subject {e : Expression} {as : List MatchArm} :
      Part (statement (.matchStatement e as)) (expression e)
  | arms {e : Expression} {v : Value} {as : List MatchArm} :
      Part (statement (.matchStatement e as)) (arms v as)
  | whileCondition {c : Expression} {ss : List Statement} :
      Part (statement (.whileStatement c ss)) (expression c)
  | whileBody {c : Expression} {ss : List Statement} :
      Part (statement (.whileStatement c ss)) (statements ss)
  | iterable {loopVariable indexVariable : Bytes} {destructureVariables : List Bytes}
      {e : Expression} {ss : List Statement} :
      Part (statement (.forStatement loopVariable indexVariable destructureVariables e ss))
        (expression e)
  | iterations {loopVariable indexVariable : Bytes} {destructureVariables : List Bytes}
      {e : Expression} {ss : List Statement} :
      Part (statement (.forStatement loopVariable indexVariable destructureVariables e ss))
        (iterations ss)
  | iteration {ss : List Statement} : Part (iterations ss) (statements ss)
  | tryBody {tryBody catchBody finallyBody : List Statement} {catchVar : Bytes} :
      Part (statement (.tryStatement tryBody catchVar catchBody finallyBody))
        (statements tryBody)
  | catchBody {tryBody catchBody finallyBody : List Statement} {catchVar : Bytes} :
      Part (statement (.tryStatement tryBody catchVar catchBody finallyBody))
        (statements catchBody)
  | finallyBody {tryBody catchBody finallyBody : List Statement} {catchVar : Bytes} :
      Part (statement (.tryStatement tryBody catchVar catchBody finallyBody))
        (statements finallyBody)
  | armBody {v : Value} {arm : MatchArm} {as : List MatchArm} :
      Part (Code.arms v (arm :: as)) (statements arm.body)
  | armPatterns {v : Value} {arm : MatchArm} {as : List MatchArm} :
      Part (Code.arms v (arm :: as)) (patterns v arm.patterns)
  | armGuard {v : Value} {arm : MatchArm} {as : List MatchArm} {g : Expression}
      (hg : arm.guard = some g) : Part (Code.arms v (arm :: as)) (expression g)
  | armsTail {v : Value} {arm : MatchArm} {as : List MatchArm} :
      Part (Code.arms v (arm :: as)) (Code.arms v as)
  | patternOperands {v : Value} {p : MatchPattern} {ps : List MatchPattern} :
      Part (patterns v (p :: ps)) (operands p.operands)
  | patternsTail {v : Value} {p : MatchPattern} {ps : List MatchPattern} :
      Part (patterns v (p :: ps)) (patterns v ps)
  | compound {e : Expression} {es : List Expression} {k : Nat} (hes : e.operands = some es) :
      Part (expression e) (operands (es.take k))
  | compoundWhole {e : Expression} {es : List Expression} (hes : e.operands = some es) :
      Part (expression e) (operands es)
  | unary {op : TokenType} {e : Expression} : Part (expression (.unary op e)) (expression e)
  | branchBody {ss : List Statement} : Part (branch (.body ss)) (statements ss)
  | branchValue {e : Expression} : Part (branch (.expression e)) (expression e)
  | ifCondition {c : Expression} {thenBranch elseBranch : Branch} :
      Part (expression (.ifExpression c thenBranch elseBranch)) (expression c)
  | ifBranch {c : Expression} {b : Bool} {thenBranch elseBranch : Branch} :
      Part (expression (.ifExpression c thenBranch elseBranch))
        (branch (if b then thenBranch else elseBranch))
  | matchSubject {e : Expression} {as : List MatchArm} :
      Part (expression (.matchExpression e as)) (expression e)
  | matchArms {e : Expression} {v : Value} {as : List MatchArm} :
      Part (expression (.matchExpression e as)) (Code.arms v as)
  | scope {ss : List Statement} : Part (expression (.taskScope ss)) (statements ss)

section Soundness

variable (tc : Checker) (env : Environment)

/-! ## What the analysis takes a statement for -/

/-- The statement is what its verdict takes it for. An expression statement that is judged is a
    call of the library function. -/
def RightlyJudged : Statement → Prop
  | .expression e => ∀ v, ¬ env.yields e v
  | .whileStatement _ body =>
    statementsJumpOut (· = .breakJump) (statementReturns tc) body = false
  | .tryStatement _ catchVar catchBody finallyBody =>
    (catchVar ≠ [] → catchBody ≠ []) ∧ (catchVar = [] → finallyBody ≠ [])
  | .matchStatement subject as =>
    ∀ v, Runs env (expression subject) (value v) →
      MatchExhaustiveness.hasCatchAll as = false →
        MatchExhaustiveness.Enumerates env.referent env.maxCallDepth tc.choices as v
  | _ => True

/-- Every statement run as part of the code, if it is judged to return, is judged rightly. -/
def Clear (c : Code) : Prop :=
  ∀ s, Relation.ReflTransGen Part c (statement s) → statementReturns tc s = true →
    RightlyJudged tc env s

variable {tc env}

theorem Clear.part {c d : Code} (h : Clear tc env c) (hpart : Part c d) : Clear tc env d :=
  fun s hs => h s (.head hpart hs)

theorem Clear.judged {s : Statement} (h : Clear tc env (statement s))
    (hs : statementReturns tc s = true) : RightlyJudged tc env s := h s .refl hs

/-! ## Jumps of operands -/

section Operands

variable {which : LoopJump → Bool} {stop : Statement → Bool}

theorem expressionsJumpOut_iff {es : List Expression} :
    expressionsJumpOut which stop es = false ↔ ∀ e ∈ es, e.jumpsOut which stop = false := by
  induction es with
  | nil => simp [expressionsJumpOut]
  | cons e es ih => simp [expressionsJumpOut, ih]

theorem namedArgumentsJumpOut_iff {as : List NamedArgument} :
    namedArgumentsJumpOut which stop as = false ↔
      ∀ a ∈ as, a.value.jumpsOut which stop = false := by
  induction as with
  | nil => simp [namedArgumentsJumpOut]
  | cons a as ih =>
    cases a
    simp [namedArgumentsJumpOut, NamedArgument.jumpsOut, NamedArgument.value, ih]

theorem entriesJumpOut_iff {as : List DictionaryEntry} :
    entriesJumpOut which stop as = false ↔
      ∀ a ∈ as, a.key.jumpsOut which stop = false ∧ a.value.jumpsOut which stop = false := by
  induction as with
  | nil => simp [entriesJumpOut]
  | cons a as ih =>
    cases a
    simp [entriesJumpOut, DictionaryEntry.jumpsOut, DictionaryEntry.key, DictionaryEntry.value,
      ih]

theorem fieldsJumpOut_iff {as : List RecordFieldInit} :
    fieldsJumpOut which stop as = false ↔ ∀ a ∈ as, a.value.jumpsOut which stop = false := by
  induction as with
  | nil => simp [fieldsJumpOut]
  | cons a as ih =>
    cases a
    simp [fieldsJumpOut, RecordFieldInit.jumpsOut, RecordFieldInit.value, ih]

/-- The parts of a call jump out only if the call does. -/
theorem callOperands_jumpOut {e : Expression} (h : e.jumpsOut which stop = false) :
    expressionsJumpOut which stop e.callOperands = false := by
  rw [expressionsJumpOut_iff]
  cases e with
  | call callee arguments namedArguments _ =>
    simp only [Expression.jumpsOut, Bool.or_eq_false_iff, expressionsJumpOut_iff,
      namedArgumentsJumpOut_iff] at h
    obtain ⟨⟨hcallee, harguments⟩, hnamed⟩ := h
    intro e' he'
    simp only [Expression.callOperands, List.cons_append, List.mem_cons, List.mem_append,
      List.mem_map] at he'
    obtain rfl | hmem | ⟨a, ha, rfl⟩ := he'
    · exact hcallee
    · exact harguments e' hmem
    · exact hnamed a ha
  | _ =>
    intro e' he'
    rw [List.mem_singleton.mp he']
    exact h

/-- The operands of an expression jump out only if it does. -/
theorem operands_jumpOut {e : Expression} {es : List Expression} (hes : e.operands = some es)
    (h : e.jumpsOut which stop = false) : expressionsJumpOut which stop es = false := by
  cases e with
  | call callee arguments namedArguments typeArguments =>
    rw [← Option.some.inj hes]
    exact callOperands_jumpOut h
  | errorPipe left right =>
    rw [← Option.some.inj hes]
    simp only [Expression.jumpsOut, Bool.or_eq_false_iff] at h
    simp [expressionsJumpOut, h.1, callOperands_jumpOut h.2]
  | pipe left right =>
    rw [← Option.some.inj hes]
    simp only [Expression.jumpsOut, Bool.or_eq_false_iff] at h
    simp [expressionsJumpOut, h.1, callOperands_jumpOut h.2]
  | spawn call =>
    rw [← Option.some.inj hes]
    exact callOperands_jumpOut h
  | dictionaryLiteral entries =>
    rw [← Option.some.inj hes, expressionsJumpOut_iff]
    simp only [Expression.jumpsOut, entriesJumpOut_iff] at h
    intro e' he'
    obtain ⟨a, ha, he'⟩ := List.mem_flatMap.mp he'
    simp only [List.mem_cons, List.not_mem_nil, or_false] at he'
    obtain rfl | rfl := he'
    · exact (h a ha).1
    · exact (h a ha).2
  | recordCreation _ _ fields =>
    rw [← Option.some.inj hes, expressionsJumpOut_iff]
    simp only [Expression.jumpsOut, fieldsJumpOut_iff] at h
    simpa using h
  | recordWith base overrides =>
    rw [← Option.some.inj hes, expressionsJumpOut_iff]
    simp only [Expression.jumpsOut, Bool.or_eq_false_iff, fieldsJumpOut_iff] at h
    simpa using h
  | ifExpression _ _ _ => simp [Expression.operands] at hes
  | matchExpression _ _ => simp [Expression.operands] at hes
  | taskScope _ => simp [Expression.operands] at hes
  | lambda _ _ _ | literal _ | «variable» _ =>
    rw [← Option.some.inj hes]
    rfl
  | _ =>
    rw [← Option.some.inj hes]
    simpa [Expression.jumpsOut, expressionsJumpOut] using h

/-- The operands of a statement jump out only if it does. -/
theorem statement_operands_jumpOut {s : Statement} {es : List Expression}
    (hes : s.operands = some es) (h : s.jumpsOut which stop = false) :
    expressionsJumpOut which stop es = false := by
  cases s with
  | variableDeclaration _ _ _ initializer =>
    rw [← Option.some.inj hes]
    cases initializer with
    | none => rfl
    | some e => simpa [Statement.jumpsOut, optionJumpsOut, expressionsJumpOut] using h
  | assignment _ _ | compoundAssignment _ _ _ | decrement _ | expression _ | increment _
  | recordDestructuring _ _ _ _ | tupleDestructuring _ _ _ =>
    rw [← Option.some.inj hes]
    simpa [Statement.jumpsOut, expressionsJumpOut] using h
  | _ => simp [Statement.operands] at hes

theorem pattern_operands_jumpOut {p : MatchPattern} (h : p.jumpsOut which stop = false) :
    expressionsJumpOut which stop p.operands = false := by
  cases p with
  | comparison _ value =>
    cases value with
    | none => rfl
    | some e =>
      simpa [MatchPattern.jumpsOut, optionJumpsOut, MatchPattern.operands, expressionsJumpOut]
        using h
  | _ => rfl

theorem option_jumpsOut {e : Option Expression} (h : optionJumpsOut which stop e = false) :
    expressionsJumpOut which stop e.toList = false := by
  cases e with
  | none => rfl
  | some e => simpa [optionJumpsOut, expressionsJumpOut] using h

theorem arm_jumpsOut {arm : MatchArm} (h : arm.jumpsOut which stop = false) :
    patternsJumpOut which stop arm.patterns = false ∧
      optionJumpsOut which stop arm.guard = false ∧
      statementsJumpOut which stop arm.body = false := by
  cases arm
  simp only [MatchArm.jumpsOut, Bool.or_eq_false_iff] at h
  simp [MatchArm.patterns, MatchArm.pattern, MatchArm.alternatives, MatchArm.guard,
    MatchArm.body, patternsJumpOut, h]

end Operands

/-! ## What the analysis promises of an outcome -/

/-- Can a jump of a kind in `which` leave the code? -/
def Code.jumpsOut (which : LoopJump → Bool) (stop : Statement → Bool) : Code → Bool
  | statement s => s.jumpsOut which stop
  | statements ss => statementsJumpOut which stop ss
  | expression e => e.jumpsOut which stop
  | operands es => expressionsJumpOut which stop es
  | branch b => b.jumpsOut which stop
  | arms _ as => armsJumpOut which stop as
  | patterns _ ps => patternsJumpOut which stop ps
  | iterations _ => false

/-- The verdict on the code holds of the outcome: code that is judged to return does not reach
    its end, and arms are passed by only if they do not cover the subject. -/
def Ends (tc : Checker) (env : Environment) : Code → Outcome → Prop
  | statement s, o => statementReturns tc s = true → o ≠ normal
  | statements ss, o => definitelyReturns tc ss = true → o ≠ normal
  | Code.arms v as, o => (armsReturn tc as = true → o ≠ normal) ∧
      (o = unmatched →
        ¬ MatchExhaustiveness.Covered env.referent env.maxCallDepth as v)
  | patterns v ps, o => o = tested false →
      ∀ p ∈ ps, p.answer env.referent env.maxCallDepth v ≠ some true
  | _, _ => True

/-- Code that no jump leaves does not end with one, if the search for it stops only where
    control does not go on. -/
def Stays (tc : Checker) (c : Code) (o : Outcome) : Prop :=
  ∀ which stop, (∀ s, stop s = true → statementReturns tc s = true) →
    c.jumpsOut which stop = false → ∀ j, which j = true → o ≠ ofJump j

section Outcomes

variable {o o' : Outcome}

theorem Outcome.Leaves.ne_normal (h : o.Leaves) : o ≠ normal := by
  rintro rfl
  exact h

theorem Outcome.Leaves.ne_unmatched (h : o.Leaves) : o ≠ unmatched := by
  rintro rfl
  exact h

theorem Outcome.Leaves.ne_tested {b : Bool} (h : o.Leaves) : o ≠ tested b := by
  rintro rfl
  exact h

theorem Outcome.after_ne_normal (h : o ≠ normal) : o.after o' ≠ normal := by
  cases o' with
  | normal => exact h
  | _ => simp [Outcome.after]

/-- What ends so in spite of a clean-up body ended so before it, or in it. -/
theorem Outcome.after_ne {p : Outcome} (h : o ≠ p) (h' : o' ≠ p) : o.after o' ≠ p := by
  cases o' with
  | normal => exact h
  | _ => exact h'

/-- An outcome that is no jump. -/
theorem stays_of_ne {tc : Checker} {c : Code} (h : ∀ j, o ≠ ofJump j) : Stays tc c o :=
  fun _ _ _ _ j _ => h j

theorem Stays.of_part {tc : Checker} {c d : Code} (h : Stays tc d o)
    (hjump : ∀ which stop, c.jumpsOut which stop = false → d.jumpsOut which stop = false) :
    Stays tc c o := fun which stop hstop hc => h which stop hstop (hjump which stop hc)

theorem normal_ne (j : LoopJump) : normal ≠ ofJump j := by
  cases j <;> simp [ofJump]

theorem value_ne (v : Value) (j : LoopJump) : Outcome.value v ≠ ofJump j := by
  cases j <;> simp [ofJump]

theorem tested_ne (b : Bool) (j : LoopJump) : tested b ≠ ofJump j := by
  cases j <;> simp [ofJump]

theorem unmatched_ne (j : LoopJump) : unmatched ≠ ofJump j := by
  cases j <;> simp [ofJump]

theorem returned_ne (j : LoopJump) : Outcome.returned ≠ ofJump j := by
  cases j <;> simp [ofJump]

theorem raised_ne (j : LoopJump) : raised ≠ ofJump j := by
  cases j <;> simp [ofJump]

theorem quits_ne (h : o = Outcome.returned ∨ o = raised) (j : LoopJump) : o ≠ ofJump j := by
  obtain rfl | rfl := h
  · exact returned_ne j
  · exact raised_ne j

theorem quits_ne_normal (h : o = Outcome.returned ∨ o = raised) : o ≠ normal := by
  obtain rfl | rfl := h <;> simp

end Outcomes

/-- A literal has its own value. -/
theorem literal_runs {l : Literal} {o : Outcome} (h : Runs env (expression (.literal l)) o) :
    o = Outcome.value l.toValue := by
  have hconst : (Expression.literal l).literalConstant = some l := by
    cases l <;> rfl
  cases h with
  | constant hc =>
    rw [hconst] at hc
    rw [Option.some.inj hc]
  | compound hc _ _ _ => simp [hconst] at hc
  | compoundRaises hc _ _ => simp [hconst] at hc
  | compoundStop hc _ _ _ => simp [hconst] at hc

/-- A call that never returns has no value. -/
theorem call_never_returns {e : Expression} {v : Value} (hcall : isNeverReturningCall tc e = true)
    (hv : ∀ w, ¬ env.yields e w) : ¬ Runs env (expression e) (Outcome.value v) := by
  intro h
  unfold isNeverReturningCall at hcall
  split at hcall
  · rename_i hform
    cases h with
    | constant hc =>
      unfold calledExpression at hform
      split at hform
      · simp [Expression.literalConstant, Expression.getSignedIntegerValue] at hc
      · simp [hform, Expression.literalConstant, Expression.getSignedIntegerValue] at hc
    | compound _ _ _ hw => exact hv v hw
    | ifValue _ _ _ => simp [calledExpression] at hform
    | matchValue _ _ _ _ => simp [calledExpression] at hform
    | scopeValue _ _ => simp [calledExpression] at hform
    | compoundStop _ _ _ ho => exact ho
    | ifLeaves _ _ ho => exact ho
    | ifConditionStop _ ho => exact ho
    | matchLeaves _ _ ho => exact ho
    | matchSubjectStop _ ho => exact ho
    | scopeLeaves _ ho => exact ho
  · simp at hcall

/-! ## One construct at a time -/

theorem while_literal {c : Expression} {body : List Statement}
    (h : statementReturns tc (.whileStatement c body) = true) :
    c = .literal (.boolean true) ∧ definitelyReturns tc body = true := by
  unfold statementReturns at h
  split at h <;> simp_all

/-- A judged loop goes on for ever, or is left by `return` or an error. -/
theorem while_condition {c : Expression} {body : List Statement} {o : Outcome}
    (h : statementReturns tc (.whileStatement c body) = true) (hc : Runs env (expression c) o) :
    o = Outcome.value (.bool true) := by
  obtain ⟨rfl, -⟩ := while_literal h
  exact literal_runs hc

theorem try_ends {tryBody catchBody finallyBody : List Statement} {catchVar : Bytes}
    {o o' o'' : Outcome}
    (hclear : Clear tc env (statement (.tryStatement tryBody catchVar catchBody finallyBody)))
    (h : Ends tc env (statements tryBody) o) (hh : Handled catchVar finallyBody o o') :
    Ends tc env (statement (.tryStatement tryBody catchVar catchBody finallyBody))
      (o'.after o'') := by
  intro hret
  obtain ⟨-, hfinally⟩ := hclear.judged hret
  simp only [statementReturns, Bool.and_eq_true] at hret
  apply Outcome.after_ne_normal
  cases hh with
  | passes _ => exact h hret.1
  | rethrown _ _ => simp
  | discarded hcatch hempty => exact absurd hempty (hfinally hcatch)

theorem catch_ends {tryBody catchBody finallyBody : List Statement} {catchVar : Bytes}
    {o o' : Outcome}
    (hclear : Clear tc env (statement (.tryStatement tryBody catchVar catchBody finallyBody)))
    (hcatch : catchVar ≠ []) (h : Ends tc env (statements catchBody) o) :
    Ends tc env (statement (.tryStatement tryBody catchVar catchBody finallyBody))
      (o.after o') := by
  intro hret
  obtain ⟨hbody, -⟩ := hclear.judged hret
  simp only [statementReturns, Bool.and_eq_true, Bool.or_eq_true, List.isEmpty_iff] at hret
  apply Outcome.after_ne_normal
  obtain hempty | hdefinite := hret.2
  · exact absurd hempty (hbody hcatch)
  · exact h hdefinite

theorem handled_ne {catchVar : Bytes} {finallyBody : List Statement} {o o' p : Outcome}
    (hh : Handled catchVar finallyBody o o') (h : o ≠ p) (hraised : raised ≠ p)
    (hnormal : normal ≠ p) : o' ≠ p := by
  cases hh with
  | passes _ => exact h
  | rethrown _ _ => exact hraised
  | discarded _ _ => exact hnormal

theorem try_stays {tryBody catchBody finallyBody : List Statement} {catchVar : Bytes}
    {c : Code} {o o' : Outcome} (hbody : Stays tc c o)
    (hpart : ∀ which stop,
      (Statement.tryStatement tryBody catchVar catchBody finallyBody).jumpsOut which stop = false →
        c.jumpsOut which stop = false) (hf : Stays tc (statements finallyBody) o') :
    Stays tc (statement (.tryStatement tryBody catchVar catchBody finallyBody)) (o.after o') := by
  intro which stop hstop hc j hj
  have hfinally : (statements finallyBody).jumpsOut which stop = false := by
    simp only [Code.jumpsOut, Statement.jumpsOut, Bool.or_eq_false_iff] at hc
    exact hc.2
  exact Outcome.after_ne (hbody which stop hstop (hpart which stop hc) j hj)
    (hf which stop hstop hfinally j hj)

/-- An exhaustive match is not passed by. -/
theorem match_ends {subject : Expression} {v : Value} {as : List MatchArm}
    (hclear : Clear tc env (statement (.matchStatement subject as)))
    (h : Runs env (expression subject) (Outcome.value v))
    (ha : Ends tc env (Code.arms v as) unmatched) :
    Ends tc env (statement (.matchStatement subject as)) normal := by
  intro hret
  have henum := hclear.judged hret v h
  simp only [statementReturns, Bool.and_eq_true] at hret
  exact absurd (MatchExhaustiveness.isExhaustive_covers hret.1 henum) (ha.2 rfl)

/-- Arms after one that was not taken. -/
theorem arms_skipped {v : Value} {arm : MatchArm} {as : List MatchArm} {o : Outcome}
    (hk : arm.kind ≠ .elseCase)
    (hrefused : arm.guard = none →
      ∀ p ∈ arm.patterns, p.answer env.referent env.maxCallDepth v ≠ some true)
    (h : Ends tc env (Code.arms v as) o) : Ends tc env (Code.arms v (arm :: as)) o := by
  constructor
  · intro hret
    simp only [armsReturn, Bool.and_eq_true] at hret
    exact h.1 hret.2
  · rintro ho ⟨taken, hmem, htaken⟩
    obtain rfl | hmem := List.mem_cons.mp hmem
    · obtain helse | ⟨hguard, p, hp, hanswer⟩ := htaken
      · exact hk helse
      · exact hrefused hguard p hp hanswer
    · exact h.2 ho ⟨taken, hmem, htaken⟩

/-- An arm that was taken. -/
theorem arms_taken {v : Value} {arm : MatchArm} {as : List MatchArm} {o : Outcome}
    (ho : o ≠ unmatched) (h : Ends tc env (statements arm.body) o) :
    Ends tc env (Code.arms v (arm :: as)) o := by
  constructor
  · intro hret
    simp only [armsReturn, Bool.and_eq_true] at hret
    cases arm
    exact h hret.1
  · intro hun
    exact absurd hun ho

/-- Arms that are left are not passed by. -/
theorem arms_left {v : Value} {as : List MatchArm} {o : Outcome} (ho : o.Leaves) :
    Ends tc env (Code.arms v as) o :=
  ⟨fun _ => ho.ne_normal, fun hun => absurd hun ho.ne_unmatched⟩

theorem patterns_refused {v : Value} {p : MatchPattern} {ps : List MatchPattern} {o : Outcome}
    (hp : p.answer env.referent env.maxCallDepth v ≠ some true)
    (h : Ends tc env (patterns v ps) o) : Ends tc env (patterns v (p :: ps)) o := by
  intro ho q hq
  obtain rfl | hq := List.mem_cons.mp hq
  · exact hp
  · exact h ho q hq

section Tails

variable {v : Value} {arm : MatchArm} {as : List MatchArm} {p : MatchPattern}
  {ps : List MatchPattern}

theorem arm_body_jumpsOut (which : LoopJump → Bool) (stop : Statement → Bool)
    (h : (Code.arms v (arm :: as)).jumpsOut which stop = false) :
    (statements arm.body).jumpsOut which stop = false := by
  simp only [Code.jumpsOut, armsJumpOut, Bool.or_eq_false_iff] at h
  exact (arm_jumpsOut h.1).2.2

theorem arms_tail_jumpsOut (which : LoopJump → Bool) (stop : Statement → Bool)
    (h : (Code.arms v (arm :: as)).jumpsOut which stop = false) :
    (Code.arms v as).jumpsOut which stop = false := by
  simp only [Code.jumpsOut, armsJumpOut, Bool.or_eq_false_iff] at h
  exact h.2

theorem patterns_tail_jumpsOut (which : LoopJump → Bool) (stop : Statement → Bool)
    (h : (patterns v (p :: ps)).jumpsOut which stop = false) :
    (patterns v ps).jumpsOut which stop = false := by
  simp only [Code.jumpsOut, patternsJumpOut, Bool.or_eq_false_iff] at h
  exact h.2

end Tails

/-- A call that never returns is the only statement without control flow that is judged. -/
theorem simple_ends {s : Statement} {es : List Expression}
    (hclear : Clear tc env (statement s)) (hes : s.operands = some es)
    (h : Runs env (operands es) normal) (hret : statementReturns tc s = true) : False := by
  have hright := hclear.judged hret
  cases s with
  | expression e =>
    rw [← Option.some.inj hes] at h
    cases h with
    | operandsCons hv _ => exact call_never_returns hret hright hv
    | operandsStop _ ho => exact ho
  | _ => simp_all [statementReturns, Statement.operands]

/-- How each kind of code can end. -/
def Fits : Code → Outcome → Prop
  | Code.arms _ _, o => o = normal ∨ o = unmatched ∨ o.Leaves
  | patterns _ _, o => (∃ b, o = tested b) ∨ o.Leaves
  | expression _, o => (∃ v, o = Outcome.value v) ∨ o.Leaves
  | _, o => o = normal ∨ o.Leaves

theorem after_fits {o o' : Outcome} (h : o = normal ∨ o.Leaves) (h' : o' = normal ∨ o'.Leaves) :
    o.after o' = normal ∨ (o.after o').Leaves := by
  cases o' with
  | normal => exact h
  | _ => exact h'

theorem runs_fits {c : Code} {o : Outcome} (h : Runs env c o) : Fits c o := by
  induction h with
  | statementsStop _ ho | operandsStop _ ho | simpleStop _ _ ho | returnStop _ ho | ifStop _ ho
  | matchStop _ ho | forStop _ ho | patternStop _ _ ho | compoundStop _ _ _ ho
  | branchStop _ ho | ifLeaves _ _ ho | ifConditionStop _ ho | matchLeaves _ _ ho
  | matchSubjectStop _ ho | scopeLeaves _ ho => exact .inr ho
  | armStop _ _ ho | guardStop _ _ _ _ ho => exact .inr (.inr ho)
  | whileStop _ _ _ ho | conditionStop _ ho | iterationsStop _ ho =>
    obtain rfl | rfl := ho <;> exact .inr trivial
  | simpleRaises _ _ | breaks | continues | returns _ | iterationsRaise | compoundRaises _ _ _
  | propagates _ | scopeRaises _ | patternRaises _ _ => exact .inr trivial
  | statementsNil | operandsNil | simple _ _ | matchPasses _ _ | whileEnds _ _
  | whileBreaks _ _ _ | conditionBreaks _ | iterationsEnd | iterationsBreak _ | branchValue _ =>
    exact .inl rfl
  | constant _ | compound _ _ _ _ | ifValue _ _ _ | matchValue _ _ _ _ | scopeValue _ _ =>
    exact .inl ⟨_, rfl⟩
  | patternsNil | patternDecides _ | patternHolds _ _ => exact .inl ⟨_, rfl⟩
  | armsNil => exact .inr (.inl rfl)
  | armRaises _ _ => exact .inr (.inr trivial)
  | matchRuns _ _ hun _ ih => exact ih.imp_right fun h => h.resolve_left hun
  | armElse _ _ ih | armTaken _ _ _ _ _ ih | armGuarded _ _ _ _ _ _ _ _ ih => exact ih.imp_right .inr
  | tryPasses _ hh _ ih ihf =>
    refine after_fits ?_ ihf
    cases hh with
    | passes _ => exact ih
    | rethrown _ _ => exact .inr trivial
    | discarded _ _ => exact .inl rfl
  | tryCatches _ _ _ _ _ ih ihf => exact after_fits ih ihf
  | statementsCons _ _ _ ih | operandsCons _ _ _ ih | block _ ih | ifRuns _ _ _ ih
  | whileAgain _ _ _ _ _ _ _ ih | conditionContinues _ _ _ ih | forRuns _ _ _ ih
  | iterationsAgain _ _ _ _ ih | armRefused _ _ _ _ _ _ _ _ ih | armSkipped _ _ _ _ ih
  | patternRefuses _ _ ih | patternFails _ _ _ _ ih | branchBody _ ih => exact ih

theorem ne_unmatched {ss : List Statement} {o : Outcome} (h : Runs env (statements ss) o) :
    o ≠ unmatched := by
  obtain rfl | ho := runs_fits h
  · simp
  · exact Outcome.Leaves.ne_unmatched ho

/-! ## Every run -/

theorem runs_sound {c : Code} {o : Outcome} (h : Runs env c o) (hclear : Clear tc env c) :
    Ends tc env c o ∧ Stays tc c o := by
  induction h with
  | statementsNil => exact ⟨by simp [Ends, definitelyReturns], stays_of_ne normal_ne⟩
  | @statementsCons s ss o h _ ih ihs =>
    obtain ⟨hends, -⟩ := ih (hclear.part .statementsHead)
    obtain ⟨hsends, hsstays⟩ := ihs (hclear.part .statementsTail)
    have hnot : ¬ statementReturns tc s = true := fun hret => hends hret rfl
    constructor
    · intro hret
      simp only [definitelyReturns, Bool.or_eq_true] at hret
      exact hsends (hret.resolve_left hnot)
    · intro which stop hstop hc
      have hgoes : stop s = false := by
        by_contra hne
        exact hnot (hstop s (by simpa using hne))
      simp only [Code.jumpsOut, statementsJumpOut, hgoes, Bool.or_eq_false_iff, Bool.not_false,
        Bool.true_and] at hc
      exact hsstays which stop hstop hc.2
  | statementsStop h ho ih =>
    obtain ⟨-, hstays⟩ := ih (hclear.part .statementsHead)
    refine ⟨fun _ => Outcome.Leaves.ne_normal ho, hstays.of_part fun which stop hc => ?_⟩
    simp only [Code.jumpsOut, statementsJumpOut, Bool.or_eq_false_iff] at hc
    exact hc.1
  | operandsNil => exact ⟨trivial, stays_of_ne normal_ne⟩
  | operandsCons _ _ _ ihs =>
    refine ⟨trivial, (ihs (hclear.part .operandsTail)).2.of_part fun which stop hc => ?_⟩
    simp only [Code.jumpsOut, expressionsJumpOut, Bool.or_eq_false_iff] at hc
    exact hc.2
  | operandsStop _ _ ih =>
    refine ⟨trivial, (ih (hclear.part .operandsHead)).2.of_part fun which stop hc => ?_⟩
    simp only [Code.jumpsOut, expressionsJumpOut, Bool.or_eq_false_iff] at hc
    exact hc.1
  | simple hes h _ =>
    refine ⟨fun hret hnormal => ?_, stays_of_ne normal_ne⟩
    exact simple_ends hclear hes h hret
  | simpleRaises _ _ _ => exact ⟨fun _ => by simp, stays_of_ne raised_ne⟩
  | simpleStop hes _ ho ih =>
    exact ⟨fun _ => Outcome.Leaves.ne_normal ho,
      (ih (hclear.part (.simple hes))).2.of_part fun which stop =>
        statement_operands_jumpOut hes⟩
  | breaks =>
    refine ⟨fun _ => by simp, fun which stop _ hc j hj => ?_⟩
    cases j with
    | breakJump =>
      simp only [Code.jumpsOut, Statement.jumpsOut] at hc
      simp [hc] at hj
    | continueJump => simp [ofJump]
  | continues =>
    refine ⟨fun _ => by simp, fun which stop _ hc j hj => ?_⟩
    cases j with
    | breakJump => simp [ofJump]
    | continueJump =>
      simp only [Code.jumpsOut, Statement.jumpsOut] at hc
      simp [hc] at hj
  | returns _ _ => exact ⟨fun _ => by simp, stays_of_ne returned_ne⟩
  | returnStop _ ho ih =>
    exact ⟨fun _ => Outcome.Leaves.ne_normal ho,
      (ih (hclear.part .returned)).2.of_part fun which stop => option_jumpsOut⟩
  | block _ ih =>
    obtain ⟨hends, hstays⟩ := ih (hclear.part .block)
    exact ⟨hends, hstays.of_part fun which stop hc => hc⟩
  | @ifRuns c v thenBody elseBody o _ _ _ ih =>
    obtain ⟨hends, hstays⟩ := ih (hclear.part .body)
    constructor
    · intro hret
      simp only [statementReturns, Bool.and_eq_true] at hret
      apply hends
      split
      · exact hret.1.2
      · exact hret.2
    · refine hstays.of_part fun which stop hc => ?_
      simp only [Code.jumpsOut, Statement.jumpsOut, Bool.or_eq_false_iff] at hc
      simp only [Code.jumpsOut]
      split
      · exact hc.1.2
      · exact hc.2
  | ifStop _ ho ih =>
    refine ⟨fun _ => Outcome.Leaves.ne_normal ho,
      (ih (hclear.part .condition)).2.of_part fun which stop hc => ?_⟩
    simp only [Code.jumpsOut, Statement.jumpsOut, Bool.or_eq_false_iff] at hc
    exact hc.1.1
  | matchRuns _ _ _ _ ih =>
    obtain ⟨hends, hstays⟩ := ih (hclear.part .arms)
    constructor
    · intro hret
      simp only [statementReturns, Bool.and_eq_true] at hret
      exact hends.1 hret.2
    · refine hstays.of_part fun which stop hc => ?_
      simp only [Code.jumpsOut, Statement.jumpsOut, Bool.or_eq_false_iff] at hc
      exact hc.2
  | matchPasses h _ _ ih =>
    exact ⟨match_ends hclear h (ih (hclear.part .arms)).1, stays_of_ne normal_ne⟩
  | matchStop _ ho ih =>
    refine ⟨fun _ => Outcome.Leaves.ne_normal ho,
      (ih (hclear.part .subject)).2.of_part fun which stop hc => ?_⟩
    simp only [Code.jumpsOut, Statement.jumpsOut, Bool.or_eq_false_iff] at hc
    exact hc.1
  | whileEnds h hv _ =>
    refine ⟨fun hret _ => ?_, stays_of_ne normal_ne⟩
    cases while_condition hret h
    simp [Value.isTruthy] at hv
  | whileAgain _ _ _ _ _ _ _ ih => exact ih hclear
  | whileBreaks h hv _ _ ih =>
    refine ⟨fun hret _ => ?_, stays_of_ne normal_ne⟩
    exact (ih (hclear.part .whileBody)).2 _ _ (fun _ hs => hs) (hclear.judged hret) .breakJump
      (by simp) rfl
  | whileStop _ _ _ ho _ _ => exact ⟨fun _ => quits_ne_normal ho, stays_of_ne (quits_ne ho)⟩
  | conditionBreaks h _ =>
    refine ⟨fun hret _ => ?_, stays_of_ne normal_ne⟩
    simpa using while_condition hret h
  | conditionContinues _ _ _ ih => exact ih hclear
  | conditionStop _ ho _ => exact ⟨fun _ => quits_ne_normal ho, stays_of_ne (quits_ne ho)⟩
  | forRuns _ _ _ ih =>
    obtain ⟨-, hstays⟩ := ih (hclear.part .iterations)
    exact ⟨by simp [Ends, statementReturns], hstays.of_part fun which stop hc => rfl⟩
  | forStop _ ho ih =>
    exact ⟨fun _ => Outcome.Leaves.ne_normal ho,
      (ih (hclear.part .iterable)).2.of_part fun which stop hc => hc⟩
  | iterationsEnd => exact ⟨trivial, stays_of_ne normal_ne⟩
  | iterationsRaise => exact ⟨trivial, stays_of_ne raised_ne⟩
  | iterationsAgain _ _ _ _ ih => exact ih hclear
  | iterationsBreak _ _ => exact ⟨trivial, stays_of_ne normal_ne⟩
  | iterationsStop _ ho _ => exact ⟨trivial, stays_of_ne (quits_ne ho)⟩
  | @tryPasses tryBody _ _ _ _ o' _ _ hh _ ih ihf =>
    obtain ⟨hends, hstays⟩ := ih (hclear.part .tryBody)
    obtain ⟨-, hfstays⟩ := ihf (hclear.part .finallyBody)
    have hhandled : Stays tc (statements tryBody) o' := fun which stop hstop hc j hj =>
      handled_ne hh (hstays which stop hstop hc j hj) (raised_ne j) (normal_ne j)
    refine ⟨try_ends hclear hends hh, try_stays hhandled ?_ hfstays⟩
    · intro which stop hc
      simp only [Statement.jumpsOut, Bool.or_eq_false_iff] at hc
      exact hc.1.1
  | tryCatches _ hcatch _ _ _ ih ihf =>
    obtain ⟨hends, hstays⟩ := ih (hclear.part .catchBody)
    obtain ⟨-, hfstays⟩ := ihf (hclear.part .finallyBody)
    refine ⟨catch_ends hclear hcatch hends, try_stays hstays ?_ hfstays⟩
    intro which stop hc
    simp only [Statement.jumpsOut, Bool.or_eq_false_iff] at hc
    exact hc.1.2
  | armsNil =>
    refine ⟨⟨fun _ => by simp, fun _ => ?_⟩, stays_of_ne unmatched_ne⟩
    rintro ⟨arm, hmem, -⟩
    simp at hmem
  | armElse _ hb ih =>
    obtain ⟨hends, hstays⟩ := ih (hclear.part .armBody)
    exact ⟨arms_taken (ne_unmatched hb) hends, hstays.of_part arm_body_jumpsOut⟩
  | armTaken _ _ _ hb _ ih =>
    obtain ⟨hends, hstays⟩ := ih (hclear.part .armBody)
    exact ⟨arms_taken (ne_unmatched hb) hends, hstays.of_part arm_body_jumpsOut⟩
  | armGuarded _ _ _ _ _ hb _ _ ih =>
    obtain ⟨hends, hstays⟩ := ih (hclear.part .armBody)
    exact ⟨arms_taken (ne_unmatched hb) hends, hstays.of_part arm_body_jumpsOut⟩
  | armRefused hk _ hg _ _ _ _ _ ih =>
    obtain ⟨hends, hstays⟩ := ih (hclear.part .armsTail)
    refine ⟨arms_skipped hk (fun hnone => ?_) hends, hstays.of_part arms_tail_jumpsOut⟩
    rw [hg] at hnone
    simp at hnone
  | @guardStop v arm as g o _ _ hg _ ho _ ih =>
    refine ⟨arms_left ho, (ih (hclear.part (.armGuard hg))).2.of_part fun which stop hc => ?_⟩
    simp only [Code.jumpsOut, armsJumpOut, Bool.or_eq_false_iff] at hc
    have hguard := (arm_jumpsOut hc.1).2.1
    rw [hg] at hguard
    exact hguard
  | armRaises _ _ _ => exact ⟨arms_left trivial, stays_of_ne raised_ne⟩
  | armSkipped hk _ _ ih ihs =>
    obtain ⟨hrefused, -⟩ := ih (hclear.part .armPatterns)
    obtain ⟨hends, hstays⟩ := ihs (hclear.part .armsTail)
    exact ⟨arms_skipped hk (fun _ => hrefused rfl) hends, hstays.of_part arms_tail_jumpsOut⟩
  | armStop _ _ ho ih =>
    refine ⟨arms_left ho, (ih (hclear.part .armPatterns)).2.of_part fun which stop hc => ?_⟩
    simp only [Code.jumpsOut, armsJumpOut, Bool.or_eq_false_iff] at hc
    exact (arm_jumpsOut hc.1).1
  | patternsNil => exact ⟨fun _ => by simp, stays_of_ne (tested_ne false)⟩
  | patternDecides _ => exact ⟨fun h => by simp at h, stays_of_ne (tested_ne true)⟩
  | patternRefuses hp _ ih =>
    obtain ⟨hends, hstays⟩ := ih (hclear.part .patternsTail)
    exact ⟨patterns_refused (by simp [hp]) hends, hstays.of_part patterns_tail_jumpsOut⟩
  | patternHolds _ _ _ => exact ⟨fun h => by simp at h, stays_of_ne (tested_ne true)⟩
  | patternFails hp _ _ _ ih =>
    obtain ⟨hends, hstays⟩ := ih (hclear.part .patternsTail)
    exact ⟨patterns_refused (by simp [hp]) hends, hstays.of_part patterns_tail_jumpsOut⟩
  | patternRaises _ _ _ => exact ⟨fun h => by simp at h, stays_of_ne raised_ne⟩
  | patternStop _ _ ho ih =>
    refine ⟨fun h => absurd h (Outcome.Leaves.ne_tested ho),
      (ih (hclear.part .patternOperands)).2.of_part fun which stop hc => ?_⟩
    simp only [Code.jumpsOut, patternsJumpOut, Bool.or_eq_false_iff] at hc
    exact pattern_operands_jumpOut hc.1
  | constant _ => exact ⟨trivial, stays_of_ne (value_ne _)⟩
  | compound _ _ _ _ _ => exact ⟨trivial, stays_of_ne (value_ne _)⟩
  | compoundRaises _ _ _ _ => exact ⟨trivial, stays_of_ne raised_ne⟩
  | compoundStop _ hes _ _ ih =>
    exact ⟨trivial, (ih (hclear.part (.compoundWhole hes))).2.of_part fun which stop =>
      operands_jumpOut hes⟩
  | propagates _ _ => exact ⟨trivial, stays_of_ne returned_ne⟩
  | branchBody _ ih =>
    exact ⟨trivial, (ih (hclear.part .branchBody)).2.of_part fun which stop hc => hc⟩
  | branchValue _ _ => exact ⟨trivial, stays_of_ne normal_ne⟩
  | branchStop _ _ ih =>
    exact ⟨trivial, (ih (hclear.part .branchValue)).2.of_part fun which stop hc => hc⟩
  | ifValue _ _ _ _ _ => exact ⟨trivial, stays_of_ne (value_ne _)⟩
  | ifLeaves _ _ _ _ ih =>
    refine ⟨trivial, (ih (hclear.part .ifBranch)).2.of_part fun which stop hc => ?_⟩
    simp only [Code.jumpsOut, Expression.jumpsOut, Bool.or_eq_false_iff] at hc
    simp only [Code.jumpsOut]
    split
    · exact hc.1.2
    · exact hc.2
  | ifConditionStop _ _ ih =>
    refine ⟨trivial, (ih (hclear.part .ifCondition)).2.of_part fun which stop hc => ?_⟩
    simp only [Code.jumpsOut, Expression.jumpsOut, Bool.or_eq_false_iff] at hc
    exact hc.1.1
  | matchValue _ _ _ _ _ _ => exact ⟨trivial, stays_of_ne (value_ne _)⟩
  | matchLeaves _ _ _ _ ih =>
    refine ⟨trivial, (ih (hclear.part .matchArms)).2.of_part fun which stop hc => ?_⟩
    simp only [Code.jumpsOut, Expression.jumpsOut, Bool.or_eq_false_iff] at hc
    exact hc.2
  | matchSubjectStop _ _ ih =>
    refine ⟨trivial, (ih (hclear.part .matchSubject)).2.of_part fun which stop hc => ?_⟩
    simp only [Code.jumpsOut, Expression.jumpsOut, Bool.or_eq_false_iff] at hc
    exact hc.1
  | scopeValue _ _ _ => exact ⟨trivial, stays_of_ne (value_ne _)⟩
  | scopeRaises _ _ => exact ⟨trivial, stays_of_ne raised_ne⟩
  | scopeLeaves _ _ ih =>
    exact ⟨trivial, (ih (hclear.part .scope)).2.of_part fun which stop hc => hc⟩

/-- The body of an accepted function with a declared type that has values never reaches its
    end. -/
theorem accepted_function_returns {returnType : TypeInfo} {body : List Statement} {o : Outcome}
    (hclear : Clear tc env (statements body)) (haccepted : mayFallThrough tc returnType body = false)
    (hvoid : returnType.kind ≠ .void) (hany : returnType.kind ≠ .stdlibAny)
    (hunknown : returnType.kind ≠ .unknown) (h : Runs env (statements body) o) : o ≠ normal := by
  have hret : definitelyReturns tc body = true := by
    simpa [mayFallThrough, hvoid, hany, hunknown] using haccepted
  exact (runs_sound h hclear).1 hret

theorem clear_iff {c : Code} :
    Clear tc env c ↔ (∀ s, c = statement s → statementReturns tc s = true →
      RightlyJudged tc env s) ∧ ∀ d, Part c d → Clear tc env d := by
  constructor
  · intro h
    refine ⟨?_, fun d hd => h.part hd⟩
    rintro s rfl hs
    exact h.judged hs
  · rintro ⟨hself, hparts⟩ s hs
    obtain rfl | ⟨d, hd, hs⟩ := hs.cases_head
    · exact hself s rfl
    · exact hparts d hd s hs

theorem clear_nil : Clear tc env (statements []) := by
  rw [clear_iff]
  refine ⟨by simp, fun d hd => ?_⟩
  cases hd

theorem clear_cons {s : Statement} {ss : List Statement} (h : Clear tc env (statement s))
    (hs : Clear tc env (statements ss)) : Clear tc env (statements (s :: ss)) := by
  rw [clear_iff]
  refine ⟨by simp, fun d hd => ?_⟩
  cases hd with
  | statementsHead => exact h
  | statementsTail => exact hs

theorem clear_return : Clear tc env (statement (.returnStatement none)) := by
  rw [clear_iff]
  constructor
  · rintro s hs -
    cases hs
    trivial
  · intro d hd
    cases hd with
    | simple hes => simp [Statement.operands] at hes
    | returned =>
      rw [clear_iff]
      refine ⟨by simp, fun d hd => ?_⟩
      cases hd

theorem clear_try {tryBody catchBody : List Statement} {catchVar : Bytes}
    (hcatch : catchVar ≠ []) (hne : catchBody ≠ []) (h : Clear tc env (statements tryBody))
    (hc : Clear tc env (statements catchBody)) :
    Clear tc env (statement (.tryStatement tryBody catchVar catchBody [])) := by
  rw [clear_iff]
  constructor
  · rintro s hs -
    cases hs
    exact ⟨fun _ => hne, fun hempty => absurd hempty hcatch⟩
  · intro d hd
    cases hd with
    | simple hes => simp [Statement.operands] at hes
    | tryBody => exact h
    | catchBody => exact hc
    | finallyBody => exact clear_nil

end Soundness

section Samples

/-- No choices, and one function that never returns. -/
def sampleChecker : Checker where
  choices := []
  isStdlibNamespace name := name = bytes "Process"
  neverReturns name := name = bytes "Process.exit"

/-- Everything can have any value. -/
def anyEnvironment : Environment where
  yields _ _ := True
  referent _ := .null
  maxCallDepth := 256

/-- Returns in the body and in the handler. -/
def handledReturn : List Statement :=
  [.tryStatement [.returnStatement none] (bytes "e") [.returnStatement none] []]

/-- The errors of a call are swallowed by a handler without statements. -/
def swallowed : List Statement :=
  [.tryStatement [.returnStatement (some (.call (.variable (bytes "f")) [] [] []))]
    (bytes "e") [] []]

/-- A `break` in the initializer of a variable leaves a loop that seems to return. -/
def hiddenBreak : List Statement :=
  [.whileStatement (.literal (.boolean true))
    [.variableDeclaration (.plain (bytes "integer") [] false false) (bytes "x") false
      (some (.ifExpression (.variable (bytes "flag")) (.body [.breakStatement])
        (.expression (.literal (.integer 1))))),
     .returnStatement (some (.variable (bytes "x")))]]

/-- A match on a value of an interface type, with an arm for one kind of record. -/
def oneRecord : List Statement :=
  [.matchStatement (.variable (bytes "shape"))
    [.mk (.recordCase (bytes "Circle") [bytes "radius"]) [] none
      [.returnStatement (some (.variable (bytes "radius")))]]]

theorem variable_runs {name : Bytes} {v : Value} :
    Runs anyEnvironment (expression (.variable name)) (Outcome.value v) :=
  .compound (k := 0) rfl rfl .operandsNil trivial

end Samples

end ControlFlow

end Luma
