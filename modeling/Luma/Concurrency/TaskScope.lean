-- SUMMARY: A task scope joining its children, one poll at a time, while they run.
import Mathlib.Data.List.Basic
import Mathlib.Logic.Function.Basic

/-! # Task Scopes

A scope waits for its children by polling them. A child that failed cancels the scope, a
cancelled scope resolves the children that no worker has started, and a join that gives up
waiting hands its children back. Between any two steps of the join its children go on. -/

namespace Luma.Concurrency

/-! ## Children and scopes -/

/-- What the promise of a task was set to. -/
inductive Resolution (V E : Type) where
  | value (v : V)
  | cancelled
  | failed (e : E)

/-- Who may set the promise of a task with a completion notifier. -/
inductive Claim where
  | unstarted
  | worker
  | abandoner
  deriving DecidableEq

/-- A child, as its handle, its worker and its scope see it. A child made without a spawn has no
    notifier. -/
structure Child (V E : Type) where
  cancelled : Bool := false
  claim : Option Claim := some .unstarted
  /-- Does its future refer to a promise? -/
  valid : Bool := true
  resolution : Option (Resolution V E) := none

/-- A scope with the tasks that exist. The scope's token is cancelled with its own flag or with
    a flag further out. -/
structure TaskScope (V E : Type) where
  tasks : Nat → Child V E
  children : List Nat
  cancelled : Bool := false
  outerCancelled : Bool := false

variable {V E : Type}

def TaskScope.isCancelled (s : TaskScope V E) : Bool := s.cancelled || s.outerCancelled

/-- The token of a task of the scope, whose parent is the scope's token. -/
def TaskScope.isTaskCancelled (s : TaskScope V E) (id : Nat) : Bool := (s.tasks id).cancelled || s.isCancelled

def TaskScope.cancelAll (s : TaskScope V E) : TaskScope V E := { s with cancelled := true }

def TaskScope.update (s : TaskScope V E) (id : Nat) (f : Child V E → Child V E) : TaskScope V E :=
  { s with tasks := Function.update s.tasks id (f (s.tasks id)) }

/-! ## What happens around a join -/

/-- What workers and other code do. -/
inductive ScopeEvent (V E : Type) where
  | claimStart (id : Nat)
  | resolve (id : Nat) (r : Resolution V E)
  | cancel (id : Nat)
  | cancelOuter

/-- A worker claims a task that nobody has claimed. -/
def Child.claimStart (c : Child V E) : Child V E :=
  if c.claim = some .unstarted then { c with claim := some .worker } else c

/-- The producer of a task sets its promise, if it has not lost the claim and the promise is not set. -/
def Child.resolve (r : Resolution V E) (c : Child V E) : Child V E :=
  if c.claim = some .unstarted ∨ c.claim = some .abandoner ∨ c.resolution.isSome then c
  else { c with resolution := some r }

def Child.cancel (c : Child V E) : Child V E := { c with cancelled := true }

/-- A scope claims a task to abandon it. -/
def Child.abandon (c : Child V E) : Child V E := { c with claim := some .abandoner }

/-- The abandon handler sets the promise, unless it is set. -/
def Child.runHandler (c : Child V E) : Child V E := { c with resolution := c.resolution <|> some .cancelled }

def TaskScope.apply (s : TaskScope V E) : ScopeEvent V E → TaskScope V E
  | .claimStart id => s.update id Child.claimStart
  | .resolve id r => s.update id (Child.resolve r)
  | .cancel id => s.update id Child.cancel
  | .cancelOuter => { s with outerCancelled := true }

/-! ## The join -/

inductive JoinMode where
  | normal
  | teardown
  deriving DecidableEq

/-- What a join throws: the error of a child, or that nothing could ever run its children. -/
inductive JoinError (E : Type) where
  | child (e : E)
  | nestedBlocking

inductive JoinOutcome (V E : Type) where
  | returned (results : List V)
  | threw (e : JoinError E)

/-- Where a join is. -/
inductive JoinPhase (V E : Type) where
  -- `while (remaining > 0)`, and whether to abandon.
  | head
  -- `abandon_if_not_started`: the exchange on a child, and the handler.
  | abandon (i : Nat)
  | runHandler (i : Nat)
  -- The loop over the children.
  | poll (i : Nat) (progressed : Bool)
  | wait
  | ended (outcome : JoinOutcome V E)

/-- The locals of `join_all`. `order` lists the positions collected so far. -/
structure Join (V E : Type) where
  mode : JoinMode
  snapshot : List Nat
  results : List V
  collected : List Bool
  remaining : Nat
  firstError : Option E := none
  abandoned : Bool := false
  phase : JoinPhase V E := .head
  order : List Nat := []

/-- A scope and the join that runs on it. -/
structure Joining (V E : Type) where
  scope : TaskScope V E
  join : Join V E

/-- `join_all` starts: the children are moved out. Missing results are none. -/
def joinAll [Inhabited V] (mode : JoinMode) (scope : TaskScope V E) : Joining V E where
  scope := { scope with children := [] }
  join :=
    { mode
      snapshot := scope.children
      results := List.replicate scope.children.length default
      collected := List.replicate scope.children.length false
      remaining := scope.children.length }

/-- Has the child been seen to end, or does its future refer to nothing? -/
def Child.settled (c : Child V E) : Bool := !c.valid || c.resolution.isSome

/-- What getting the future throws, other than a cancellation. -/
def Child.error (c : Child V E) : Option E :=
  if c.valid then
    match c.resolution with
    | some (.failed e) => some e
    | _ => none
  else none

/-- What getting the future returns, or none. -/
def Child.value [Inhabited V] (c : Child V E) : V :=
  if c.valid then
    match c.resolution with
    | some (.value v) => v
    | _ => default
  else default

namespace Joining

/-- Nothing is left to collect. -/
def finish (s : Joining V E) : JoinOutcome V E :=
  match s.join.firstError with
  | some e => .threw (.child e)
  | none => .returned s.join.results

/-- Go on elsewhere. -/
def goTo (s : Joining V E) (phase : JoinPhase V E) : Joining V E := { s with join := { s.join with phase } }

/-- The body of the loop over the children, at one that has not been collected and has settled. -/
def collect [Inhabited V] (s : Joining V E) (i : Nat) (child : Child V E) : Joining V E :=
  { scope := if child.error.isSome ∧ s.join.firstError = none then s.scope.cancelAll else s.scope
    join :=
      { s.join with
        results := s.join.results.set i child.value
        collected := s.join.collected.set i true
        remaining := s.join.remaining - 1
        firstError := s.join.firstError <|> child.error
        phase := .poll (i + 1) true
        order := s.join.order ++ [i] } }

/-- One step of a join. `stalled` is what `verify_not_deadlocked` finds. -/
def step [Inhabited V] (stalled : Bool) (s : Joining V E) : Joining V E :=
  match s.join.phase with
  | .head =>
    if s.join.remaining = 0 then s.goTo (.ended s.finish)
    else if s.join.abandoned ∨ s.join.mode ≠ .teardown ∧ s.scope.isCancelled = false then s.goTo (.poll 0 false)
    else { s with join := { s.join with abandoned := true, phase := .abandon 0 } }
  | .abandon i =>
    match s.join.snapshot[i]? with
    | none => s.goTo (.poll 0 false)
    | some id =>
      if s.join.collected[i]? = some false ∧ (s.scope.tasks id).claim = some .unstarted then
        { scope := s.scope.update id Child.abandon, join := (s.goTo (.runHandler i)).join }
      else s.goTo (.abandon (i + 1))
  | .runHandler i =>
    match s.join.snapshot[i]? with
    | none => s.goTo (.abandon (i + 1))
    | some id => { scope := s.scope.update id Child.runHandler, join := (s.goTo (.abandon (i + 1))).join }
  | .poll i progressed =>
    match s.join.snapshot[i]? with
    | none => if s.join.remaining > 0 ∧ progressed = false then s.goTo .wait else s.goTo .head
    | some id =>
      if s.join.collected[i]? = some true then s.goTo (.poll (i + 1) progressed)
      else if (s.scope.tasks id).settled = false then s.goTo (.poll (i + 1) progressed)
      else s.collect i (s.scope.tasks id)
  | .wait =>
    if s.join.abandoned = false ∧ stalled then
      -- Nested blocking: the children are handed back.
      { scope := { s.scope with children := s.join.snapshot }
        join := { s.join with phase := .ended (.threw .nestedBlocking) } }
    else s.goTo .head
  | .ended _ => s

/-- One thing that happens: a step of the join, or an event around it. -/
inductive Action (V E : Type) where
  | step (stalled : Bool)
  | event (e : ScopeEvent V E)

def act [Inhabited V] (s : Joining V E) : Action V E → Joining V E
  | .step stalled => s.step stalled
  | .event e => { s with scope := s.scope.apply e }

def run [Inhabited V] (s : Joining V E) (actions : List (Action V E)) : Joining V E := actions.foldl act s

end Joining

/-- `retire_task_scope`, after a join of the scope ended: cancel, and join in teardown. -/
def TaskScope.retire [Inhabited V] (s : TaskScope V E) : Joining V E := joinAll .teardown s.cancelAll

end Luma.Concurrency
