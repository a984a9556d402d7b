import DurableWorkflow.Retry
import DurableWorkflow.Signal
import DurableWorkflow.Trace
import DurableWorkflow.Work

/-!
# Steps

A step works on the context of the run, of type `C`, and on a memory of type `H` that outlives the
run. It may be undone, it may wait for a signal, and it may have limits of its own.
-/

namespace DurableWorkflow

inductive StepOutcome where
  | success
  | failure (error : StepError) (shouldRetry : Bool)
  | suspended (signal : String) (limit : Option Nanos)
  deriving DecidableEq, Repr, Inhabited

/-- What a step reports, with anything else it has to say. -/
structure StepResult where
  outcome : StepOutcome
  metadata : List (String × Json) := []
  deriving Inhabited

namespace StepResult

def success : StepResult := { outcome := .success }

/-- A failure for good. -/
def failure (e : StepError) : StepResult := { outcome := .failure e false }

/-- A failure that may pass. -/
def retryable (e : StepError) : StepResult := { outcome := .failure e true }

def suspend (signal : String) : StepResult := { outcome := .suspended signal none }

def suspendFor (signal : String) (limit : Nanos) : StepResult :=
  { outcome := .suspended signal (some limit) }

def withMetadata (r : StepResult) (name : String) (value : Json) : StepResult :=
  { r with metadata := Json.insertMember name value r.metadata }

def isSuccess (r : StepResult) : Bool := r.outcome == .success

def isSuspended (r : StepResult) : Bool :=
  match r.outcome with
  | .suspended .. => true
  | _ => false

def error? (r : StepResult) : Option StepError :=
  match r.outcome with
  | .failure e _ => some e
  | _ => none

end StepResult

/-- What of an outcome is kept in the trace. -/
def StepOutcome.toTrace : StepOutcome → TraceOutcome
  | .success => .succeeded
  | .failure e shouldRetry => .failed e.message shouldRetry
  | .suspended signal _ => .suspended signal

structure Step (C H : Type) where
  name : String
  execute : Work (C × H) StepResult
  /-- Go on after the signal has come that the step waited for. -/
  onSignal : Signal → Work (C × H) StepResult := fun _ => .done .success
  /-- Undo what the step did; a step without it has nothing to undo. -/
  compensate : Option (Work (C × H) StepResult) := none
  canRetry : Bool := true
  /-- For one attempt. -/
  limit : Option Nanos := none
  /-- In place of the policy of the run. -/
  retryPolicy : Option RetryPolicy := none
  maySuspend : Bool := false

namespace Step

variable {C D H : Type}

def compensates (s : Step C H) : Bool := s.compensate.isSome

/-- The same step on a part of a larger context. -/
def zoom (get : D → C) (set : C → D → D) (s : Step C H) : Step D H :=
  let get' := fun (t : D × H) => (get t.1, t.2)
  let set' := fun (u : C × H) (t : D × H) => (set u.1 t.1, u.2)
  { s with
    execute := s.execute.zoom get' set'
    onSignal := fun signal => (s.onSignal signal).zoom get' set'
    compensate := s.compensate.map (·.zoom get' set') }

end Step

end DurableWorkflow
