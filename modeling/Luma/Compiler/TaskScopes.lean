-- SUMMARY: How compiled code opens and retires the task scopes of a VM.
import Luma.Compiler.ScopeCode

/-! # Task Scopes

The VM keeps the open task scopes on a stack of their own, and every handler remembers how
deep that stack was. `Executes` runs compiled code on this bookkeeping. Which way a
conditional jump goes, what raises and which function is called is left open, so that every
run of a program is one of these. A run can be looked at before it ends: it is then
`interrupted`. -/

namespace Luma.TaskScopes

open Codec

/-! ## The bookkeeping of the VM -/

/-- What happens to scopes and tasks, which are numbered as they come. -/
inductive ScopeEvent where
  | begun (scope : Nat)
  /-- A TaskScopeEnd joined a scope; the expression it ends had begun `own`. -/
  | ended (own joined : Nat)
  | retired (scope : Nat)
  | spawned (task : Nat) (scope : Option Nat)
  | joined (task : Nat)
  deriving DecidableEq, Repr

/-- The open scopes and the depths the handlers remember, innermost first. `lapses` counts the
    times a scope was left behind. The latest event comes first. -/
structure ScopeState where
  taskScopes : List Nat
  handlers : List Nat
  nextScope : Nat
  nextTask : Nat
  lapses : Nat
  log : List ScopeEvent
  deriving DecidableEq, Repr

namespace ScopeState

/-- A VM that has just started. -/
def initial : ScopeState where
  taskScopes := []
  handlers := []
  nextScope := 0
  nextTask := 0
  lapses := 0
  log := []

def handleTaskScopeBegin (s : ScopeState) : ScopeState :=
  { s with
    taskScopes := s.nextScope :: s.taskScopes
    nextScope := s.nextScope + 1
    log := .begun s.nextScope :: s.log }

/-- A new task is a child of the innermost scope. -/
def handleSpawn (s : ScopeState) : ScopeState :=
  { s with
    nextTask := s.nextTask + 1
    log := .spawned s.nextTask s.taskScopes.head? :: s.log }

/-- The tasks spawned in a scope. -/
def children (scope : Nat) (log : List ScopeEvent) : List Nat :=
  log.filterMap fun
    | .spawned task (some parent) => if parent = scope then some task else none
    | _ => none

/-- Join the children of the innermost scope and drop it. -/
def retireTaskScope (s : ScopeState) : ScopeState :=
  match s.taskScopes with
  | [] => s
  | scope :: taskScopes =>
    { s with
      taskScopes
      log := .retired scope :: ((children scope s.log).map .joined ++ s.log) }

/-- Retire scopes until no more than `depth` are open. -/
def unwindTaskScopesTo (depth : Nat) (s : ScopeState) : ScopeState :=
  retireTaskScope^[s.taskScopes.length - depth] s

/-- TaskScopeEnd joins the innermost scope, whether the join succeeds or raises. `own` is the
    scope that the same expression began. -/
def handleTaskScopeEnd (own : Nat) (s : ScopeState) : ScopeState :=
  match s.taskScopes with
  | [] => s
  | scope :: _ => retireTaskScope { s with log := .ended own scope :: s.log }

def opTryCatch (s : ScopeState) : ScopeState :=
  { s with handlers := s.taskScopes.length :: s.handlers }

def opTryEnd (s : ScopeState) : ScopeState := { s with handlers := s.handlers.tail }

/-- An error resumes at the innermost handler. -/
def handleError (s : ScopeState) : ScopeState :=
  match s.handlers with
  | [] => s
  | depth :: handlers => unwindTaskScopesTo depth { s with handlers }

/-- Something was left behind. -/
def lapse (s : ScopeState) : ScopeState := { s with lapses := s.lapses + 1 }

end ScopeState

/-! ## Runs -/

/-- How code ends. `aborted` is an error that leaves the whole activation of the dispatch loop,
    past its handlers. -/
inductive Outcome where
  | normal | broke | continued | returned | raised | aborted | interrupted
  deriving DecidableEq, Repr

namespace Outcome

/-- Does control go on in the program right away? -/
def Completes : Outcome → Prop
  | normal | broke | continued | returned => True
  | raised | aborted | interrupted => False

/-- Did a jump leave the code? -/
def Jumps : Outcome → Prop
  | broke | continued | returned => True
  | _ => False

/-- A cleanup that reaches its end lets the earlier outcome stand. -/
def after (o : Outcome) : Outcome → Outcome
  | normal => o
  | o' => o'

end Outcome

open ScopeCode ScopeState Outcome

inductive Executes (prog : ScopeProgram) : ScopeCode → ScopeState → Outcome → ScopeState → Prop where
  | interrupt {c : ScopeCode} {s : ScopeState} : Executes prog c s interrupted s
  | skip {s : ScopeState} : Executes prog skip s normal s
  | simple {s : ScopeState} : Executes prog simple s normal s
  | simpleRaises {s : ScopeState} : Executes prog simple s raised s
  | seq {c d : ScopeCode} {s t u : ScopeState} {o : Outcome} (h : Executes prog c s normal t)
      (h' : Executes prog d t o u) : Executes prog (seq c d) s o u
  | seqStop {c d : ScopeCode} {s t : ScopeState} {o : Outcome} (h : Executes prog c s o t)
      (ho : o ≠ normal) : Executes prog (seq c d) s o t
  | eitherLeft {c d : ScopeCode} {s t : ScopeState} {o : Outcome} (h : Executes prog c s o t) :
      Executes prog (either c d) s o t
  | eitherRight {c d : ScopeCode} {s t : ScopeState} {o : Outcome} (h : Executes prog d s o t) :
      Executes prog (either c d) s o t
  | starEnd {c : ScopeCode} {s : ScopeState} : Executes prog (star c) s normal s
  | starAgain {c : ScopeCode} {s t u : ScopeState} {o : Outcome} (h : Executes prog c s normal t)
      (h' : Executes prog (star c) t o u) : Executes prog (star c) s o u
  | starStop {c : ScopeCode} {s t : ScopeState} {o : Outcome} (h : Executes prog c s o t)
      (ho : o ≠ normal) : Executes prog (star c) s o t
  | loopAgain {c : ScopeCode} {s t u : ScopeState} {o o' : Outcome} (h : Executes prog c s o t)
      (ho : o = normal ∨ o = continued) (h' : Executes prog (loop c) t o' u) :
      Executes prog (loop c) s o' u
  | loopBreaks {c : ScopeCode} {s t : ScopeState} (h : Executes prog c s broke t) :
      Executes prog (loop c) s normal t
  | loopStop {c : ScopeCode} {s t : ScopeState} {o : Outcome} (h : Executes prog c s o t)
      (ho : o ≠ normal ∧ o ≠ broke ∧ o ≠ continued) : Executes prog (loop c) s o t
  -- A jump takes no scope with it.
  | breaks {s : ScopeState} : Executes prog breakJump s broke s
  | continues {s : ScopeState} : Executes prog continueJump s continued s
  | returns {s : ScopeState} : Executes prog returnJump s returned s
  -- Handlers. A jump out of the body removes the handler on its way.
  | tryPasses {c handler : ScopeCode} {s t : ScopeState} {o : Outcome}
      (h : Executes prog c s.opTryCatch o t) (ho : o.Completes) :
      Executes prog (tryCatch c handler) s o t.opTryEnd
  | tryCatches {c handler : ScopeCode} {s t u : ScopeState} {o : Outcome}
      (h : Executes prog c s.opTryCatch raised t) (h' : Executes prog handler t.handleError o u) :
      Executes prog (tryCatch c handler) s o u
  -- Cancellations pass a handler that is not for cleanup, and signals pass every handler.
  | tryLeaves {c handler : ScopeCode} {s t : ScopeState}
      (h : Executes prog c s.opTryCatch raised t) :
      Executes prog (tryCatch c handler) s raised t.opTryEnd
  -- The error value finds the stack of values full: the exception leaves the dispatch loop from
  -- inside its own exception dispatch, and nothing retires the scopes below the handler.
  | tryAborts {c handler : ScopeCode} {s t : ScopeState}
      (h : Executes prog c s.opTryCatch raised t) :
      Executes prog (tryCatch c handler) s aborted t.handleError.lapse
  | tryStop {c handler : ScopeCode} {s t : ScopeState} {o : Outcome}
      (h : Executes prog c s.opTryCatch o t) (ho : o = aborted ∨ o = interrupted) :
      Executes prog (tryCatch c handler) s o t
  | finallyPasses {c cleanup : ScopeCode} {s t u : ScopeState} {o o' : Outcome}
      (h : Executes prog c s.opTryCatch o t) (ho : o.Completes)
      (h' : Executes prog cleanup t.opTryEnd o' u) :
      Executes prog (tryFinally c cleanup) s (o.after o') u
  | finallyCatches {c cleanup : ScopeCode} {s t u : ScopeState} {o : Outcome}
      (h : Executes prog c s.opTryCatch raised t) (h' : Executes prog cleanup t.handleError o u) :
      Executes prog (tryFinally c cleanup) s (raised.after o) u
  | finallyLeaves {c cleanup : ScopeCode} {s t : ScopeState}
      (h : Executes prog c s.opTryCatch raised t) :
      Executes prog (tryFinally c cleanup) s raised t.opTryEnd
  | finallyAborts {c cleanup : ScopeCode} {s t : ScopeState}
      (h : Executes prog c s.opTryCatch raised t) :
      Executes prog (tryFinally c cleanup) s aborted t.handleError.lapse
  | finallyStop {c cleanup : ScopeCode} {s t : ScopeState} {o : Outcome}
      (h : Executes prog c s.opTryCatch o t) (ho : o = aborted ∨ o = interrupted) :
      Executes prog (tryFinally c cleanup) s o t
  -- Task scopes. The join raises if a child fails.
  | scopeEnds {c : ScopeCode} {s t : ScopeState}
      (h : Executes prog c s.handleTaskScopeBegin normal t) :
      Executes prog (taskScope c) s normal (t.handleTaskScopeEnd s.nextScope)
  | scopeRaises {c : ScopeCode} {s t : ScopeState}
      (h : Executes prog c s.handleTaskScopeBegin normal t) :
      Executes prog (taskScope c) s raised (t.handleTaskScopeEnd s.nextScope)
  | scopeStop {c : ScopeCode} {s t : ScopeState} {o : Outcome}
      (h : Executes prog c s.handleTaskScopeBegin o t)
      (ho : o = raised ∨ o = aborted ∨ o = interrupted) : Executes prog (taskScope c) s o t
  -- No TaskScopeEnd is emitted on the way of a jump.
  | scopeEscapes {c : ScopeCode} {s t : ScopeState} {o : Outcome}
      (h : Executes prog c s.handleTaskScopeBegin o t) (ho : o.Jumps) :
      Executes prog (taskScope c) s o t.lapse
  | spawns {s : ScopeState} : Executes prog spawn s normal s.handleSpawn
  | spawnRaises {s : ScopeState} : Executes prog spawn s raised s
  -- Calls. A native function calls back any number of times; an error that leaves a callback
  -- retires the scopes of its activation, and the native function may go on.
  | callEnds {s : ScopeState} : Executes prog call s normal s
  | callRaises {s : ScopeState} : Executes prog call s raised s
  | callReturns {f : Callable} {s t u : ScopeState} {o o' : Outcome} (hf : f ∈ prog.callables)
      (h : Executes prog f.compile s o t) (ho : o = normal ∨ o = returned)
      (h' : Executes prog call t o' u) : Executes prog call s o' u
  | callThrows {f : Callable} {s t : ScopeState} {o : Outcome} (hf : f ∈ prog.callables)
      (h : Executes prog f.compile s o t) (ho : o = raised ∨ o = aborted ∨ o = interrupted) :
      Executes prog call s o t
  | callbackThrows {f : Callable} {s t u : ScopeState} {o : Outcome} (hf : f ∈ prog.callables)
      (h : Executes prog f.compile s raised t)
      (h' : Executes prog call (t.unwindTaskScopesTo s.taskScopes.length) o u) :
      Executes prog call s o u
  | callbackAborts {f : Callable} {s t u : ScopeState} {o : Outcome} (hf : f ∈ prog.callables)
      (h : Executes prog f.compile s aborted t)
      (h' : Executes prog call { t with handlers := s.handlers } o u) : Executes prog call s o u
  | fieldDefaults {isMain : Bool} {typeName : Bytes} {e : Expression} {s t : ScopeState}
      {o : Outcome} (he : e ∈ prog.recordDefaults typeName)
      (h : Executes prog (e.compile isMain) s o t) :
      Executes prog (fieldDefaults isMain typeName) s o t

/-! ## Bookkeeping in order -/

/-- Every scope that was begun is open or has been retired once, every TaskScopeEnd joined the
    scope its own expression began, and every child of a scope that is no longer open has been
    joined. -/
structure ScopeState.Valid (s : ScopeState) : Prop where
  distinct : s.taskScopes.Nodup
  begun : ∀ scope, .begun scope ∈ s.log ↔ scope < s.nextScope
  opened : ∀ scope ∈ s.taskScopes, scope < s.nextScope
  once : ∀ scope < s.nextScope,
    s.log.count (.retired scope) = if scope ∈ s.taskScopes then 0 else 1
  unopened : ∀ scope, s.nextScope ≤ scope → s.log.count (.retired scope) = 0
  ended : ∀ own joined, .ended own joined ∈ s.log → own = joined
  spawned : ∀ task scope, .spawned task (some scope) ∈ s.log → scope < s.nextScope
  joined : ∀ task scope, .spawned task (some scope) ∈ s.log → scope ∉ s.taskScopes →
    .joined task ∈ s.log

/-- What code leaves behind: where control goes on, the stacks of scopes and handlers are what
    they were; where an error is on its way to a handler, scopes may still be open above those
    that were open before. -/
structure Keeps (s : ScopeState) (o : Outcome) (t : ScopeState) : Prop where
  completed : o.Completes → t.taskScopes = s.taskScopes ∧ t.handlers = s.handlers
  raised : o = Outcome.raised → t.handlers = s.handlers
  inside : s.taskScopes <:+ t.taskScopes

end Luma.TaskScopes
