import DurableWorkflow.Graph
import DurableWorkflow.Json.Printer
import DurableWorkflow.Run.Board
import DurableWorkflow.Walk

/-!
# Visiting nodes

What happens at one node. Every visit is counted, and beyond the limit it is refused. A step is
tried until it succeeds, waits, or may not be tried again; a choice is decided; the branches of a
parallel node run side by side until all of them have ended. A cancelled run ends wherever it
notices that it is cancelled.
-/

namespace DurableWorkflow

/-- How a walk ended. -/
inductive Halt where
  /-- There was nothing left to visit. -/
  | drained
  | failed (failure : Failure)
  | suspended (s : Suspension)
  | cancelled
  /-- A checkpoint was fatal. -/
  | crashed (message : String)
  deriving DecidableEq, Repr, Inhabited

/-- What a walk reports: the entries of a branch, and how it ended. -/
structure Report where
  trace : List StepTrace := []
  halt : Halt
  deriving DecidableEq, Repr, Inhabited

namespace Report

def failure? (r : Report) : Option Failure :=
  match r.halt with
  | .failed f => some f
  | _ => none

def isCancelled (r : Report) : Bool := r.halt == .cancelled

def crash? (r : Report) : Option String :=
  match r.halt with
  | .crashed m => some m
  | _ => none

end Report

/-- Where flow goes from a node. -/
inductive Turn where
  /-- On to these nodes, the first one first. -/
  | onward (next : List NodeId)
  | failed (failure : Failure)
  | suspended (signal : String) (limit : Option Nanos)
  deriving DecidableEq, Repr, Inhabited

/-- What came of a node: its entries, and where flow goes. -/
structure Visited where
  trace : List StepTrace := []
  turn : Turn
  deriving DecidableEq, Repr, Inhabited

namespace Visited

def onward (next : List NodeId) : Visited := { turn := .onward next }

/-- A failure that no step reported. -/
def engineFailure (label : String) (node : NodeId) (message : String) : Visited :=
  { turn := .failed (Failure.ofEngine label node message) }

end Visited

/-- The answer to a wish to visit a node. -/
inductive Admission where
  | cancelled
  | refused
  | admitted
  deriving DecidableEq, Repr, Inhabited

namespace Environment

variable {C H X ω : Type} (env : Environment C H X ω)

/-- A part of a walk of a run. -/
abbrev Part (C H X ω : Type) := Piece (Board C H X × ω) Report

/-- End the walk as cancelled. -/
def stop {α : Type} : Part C H X ω α := .halt { halt := .cancelled }

def isCancelled : Part C H X ω Bool := .read fun s => env.cancelled s.2

def announcing (what : Happening) : Part C H X ω Unit :=
  .modify fun (b, w) => (b, env.announce what w)

def counting (f : Metrics → Metrics) : Part C H X ω Unit :=
  .modify fun (b, w) => ({ b with ledger.metrics := f b.ledger.metrics }, w)

def now : Part C H X ω Timestamp := .read fun s => env.wall s.2

/-- Wait, unless the run is cancelled. -/
def resting (d : Nanos) : Part C H X ω Unit := do
  if ← Piece.pause d then stop

/-- Count a visit. -/
def countVisit (s : Board C H X × ω) : Admission × (Board C H X × ω) :=
  let (b, w) := s
  if env.cancelled w then (.cancelled, s)
  else
    let b := { b with visits := b.visits + 1 }
    (if b.visits > env.options.maxNodeVisits then .refused else .admitted, b, w)

def limitMessage : String :=
  "node visit limit of " ++ toString env.options.maxNodeVisits ++ " exceeded"

/-- One attempt at a step. -/
def attempt (s : Step C H) : Part C H X ω StepResult := do
  let ending ← Piece.call s.limit (env.onBoard s.execute)
  match ending with
  | .timedOut => pure (.retryable (.timedOut s.name (s.limit.getD 0)))
  | .cancelled => stop
  | .finished r => if ← env.isCancelled then stop else pure r
  | .crashed m => if ← env.isCancelled then stop else pure (.failure (.panicked m))

/-- Announce attempt `attempt` if it failed. Will there be another one? -/
def judge (node : NodeId) (s : Step C H) (policy : RetryPolicy) (attempt : Nat)
    (result : StepResult) : Part C H X ω Bool :=
  match result.outcome with
  | .failure error shouldRetry => do
    let willRetry := shouldRetry && s.canRetry && policy.allowsRetry attempt error
    env.announcing (.stepFailed node s.name error.message willRetry)
    pure willRetry
  | _ => pure false

/-- Try a step, waiting between the attempts, of which `attempt` is the next and `spare` more may
follow. The result comes with the number of the last attempt. -/
def attempts (node : NodeId) (s : Step C H) (policy : RetryPolicy) :
    Nat → Nat → Part C H X ω (StepResult × Nat)
  | 0, attempt => do
    let result ← env.attempt s
    let _ ← env.judge node s policy attempt result
    pure (result, attempt)
  | spare + 1, attempt => do
    let result ← env.attempt s
    if ← env.judge node s policy attempt result then
      counting fun m => { m with retries := m.retries + 1 }
      resting (policy.delayFor attempt)
      attempts node s policy spare (attempt + 1)
    else pure (result, attempt)

/-- Note the size of the context, where sizes are tracked. -/
def trackContextSize : Part C H X ω Unit := do
  if env.options.trackContextSize then
    .modify fun (b, w) =>
      match env.encode b.context with
      | none => (b, w)
      | some j =>
        let peak := max (b.ledger.metrics.peakContextBytes.getD 0) j.size
        ({ b with ledger.metrics.peakContextBytes := some peak }, w)

/-- Enter the end of a step into the books. -/
def settle (node : NodeId) (s : Step C H) (next : Option NodeId) (startedAt : Timestamp)
    (result : StepResult) (attempts : Nat) : Part C H X ω Visited := do
  let completedAt ← env.now
  let entry : StepTrace :=
    { step := s.name, node, startedAt, completedAt, outcome := result.outcome.toTrace, attempts }
  match result.outcome with
  | .success =>
    .modify fun (b, w) =>
      let completed := b.ledger.completed ++ if s.compensates then [(node, s)] else []
      let metrics := { b.ledger.metrics with executed := b.ledger.metrics.executed + 1 }
      ({ b with ledger := { b.ledger with completed, metrics } }, w)
    env.announcing (.stepCompleted node s.name attempts entry.durationMillis.toNat)
    env.trackContextSize
    pure { trace := [entry], turn := .onward next.toList }
  | .failure error _ =>
    counting fun m => { m with failed := m.failed + 1 }
    pure { trace := [entry], turn := .failed ⟨some s.name, some node, attempts, error.message⟩ }
  | .suspended signal limit => pure { trace := [entry], turn := .suspended signal limit }

/-- Run a step. -/
def runStep (node : NodeId) (s : Step C H) (next : Option NodeId) : Part C H X ω Visited := do
  let policy := s.retryPolicy.getD env.options.retry
  let startedAt ← env.now
  let (result, attempts) ← env.attempts node s policy (policy.maxAttempts - 1) 1
  env.settle node s next startedAt result attempts

/-- Decide a choice. -/
def choose (node : NodeId) (holds : Predicate C) (thenEntry elseEntry next : Option NodeId) :
    Part C H X ω Visited := do
  let verdict ← .read fun (b, _) => holds b.context
  match verdict with
  | .ok b => pure (.onward ((if b then thenEntry else elseEntry).or next).toList)
  | .error m =>
    pure (.engineFailure "conditional" node ("conditional predicate panicked: " ++ m))

/-- What comes of a parallel node whose branches have reported. -/
def join (reports : List Report) (next : Option NodeId) : Visited :=
  { trace := reports.flatMap (·.trace)
    turn := match reports.findSome? Report.failure? with
      | some f => .failed f
      | none => .onward next.toList }

/-- Run branches side by side. -/
def runParallel (branch : NodeId → Walk (Board C H X × ω) Report) (children : List NodeId)
    (next : Option NodeId) : Part C H X ω Visited := do
  let reports ← Piece.fork (children.map branch)
  let isCancelled ← env.isCancelled
  if isCancelled || reports.any Report.isCancelled then stop else pure (join reports next)

/-- What a node does once it is visited; `branch` is the walk of a branch that starts at a node. -/
def enter (branch : NodeId → Walk (Board C H X × ω) Report) (node : NodeId) (n : Node C H) :
    Part C H X ω Visited :=
  match n.kind with
  | .step s => env.runStep node s n.next
  | .sequence children => pure (.onward (children ++ n.next.toList))
  | .conditional holds t e => choose node holds t e n.next
  | .parallel children => env.runParallel branch children n.next
  | .delay d => do
    resting d
    pure (.onward n.next.toList)

/-- Visit a node of the graph. -/
def visit (graph : Graph C H) (branch : NodeId → Walk (Board C H X × ω) Report) (node : NodeId) :
    Part C H X ω Visited := do
  match ← .update env.countVisit with
  | .cancelled => stop
  | .refused => pure (.engineFailure "engine" node env.limitMessage)
  | .admitted =>
    match graph.get? node with
    | none => pure (.engineFailure "engine" node ("node " ++ node.text ++ " does not exist"))
    | some n => env.enter branch node n

/-- Hand a signal to the step that waits at a node. -/
def deliver (graph : Graph C H) (node : NodeId) (signal : Signal) : Part C H X ω Visited := do
  match graph.get? node with
  | none => pure (.engineFailure "engine" node ("waiting node " ++ node.text ++ " does not exist"))
  | some n =>
    match n.step? with
    | none =>
      pure (.engineFailure n.kind.label node ("waiting node " ++ node.text ++ " is not a step"))
    | some s => do
      let startedAt ← env.now
      match ← Piece.call none (env.onBoard (s.onSignal signal)) with
      | .finished r => env.settle node s n.next startedAt r 1
      | .crashed m => env.settle node s n.next startedAt (.failure (.panicked m)) 1
      | .timedOut | .cancelled => stop

end Environment

end DurableWorkflow
