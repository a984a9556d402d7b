import DurableWorkflow.Config
import DurableWorkflow.Step

/-!
# Results of a run

How a run ended, what it left behind, and what it counted on the way.
-/

namespace DurableWorkflow

/-- Why a run failed. -/
structure Failure where
  /-- The step that failed, or what the engine calls itself; nothing for the run as a whole. -/
  step : Option String
  node : Option NodeId
  attempts : Nat
  message : String
  deriving DecidableEq, Repr, Inhabited

namespace Failure

/-- A failure of the run as a whole. -/
def ofRun (message : String) : Failure := ⟨none, none, 0, message⟩

/-- A failure at a node that no step reported. -/
def ofEngine (label : String) (node : NodeId) (message : String) : Failure :=
  ⟨some label, some node, 0, message⟩

def text (f : Failure) : String :=
  match f.step with
  | some step =>
    "step '" ++ step ++ "' failed after " ++ toString f.attempts ++ " attempt(s): " ++ f.message
  | none => f.message

end Failure

/-- What a run waits for, and the nodes it will visit after the waiting one, the next one last. -/
structure Suspension where
  signal : String
  limit : Option Nanos
  node : NodeId
  pending : List NodeId
  deriving DecidableEq, Repr, Inhabited

inductive RunOutcome where
  | completed
  | failed (failure : Failure)
  | suspended (s : Suspension)
  deriving DecidableEq, Repr, Inhabited

namespace RunOutcome

def isCompleted : RunOutcome → Bool
  | completed => true
  | _ => false

def isFailed : RunOutcome → Bool
  | failed _ => true
  | _ => false

def isSuspended : RunOutcome → Bool
  | suspended _ => true
  | _ => false

def failure? : RunOutcome → Option Failure
  | failed f => some f
  | _ => none

end RunOutcome

structure CompensationFailure where
  step : String
  error : StepError
  deriving DecidableEq, Repr, Inhabited

structure Metrics where
  executed : Nat := 0
  failed : Nat := 0
  retries : Nat := 0
  durationMillis : Nat := 0
  /-- The largest context seen, where sizes are tracked. -/
  peakContextBytes : Option Nat := none
  deriving DecidableEq, Repr, Inhabited

structure RunResult (C : Type) where
  outcome : RunOutcome
  context : C
  /-- Steps that were undone, in the order in which that was done. -/
  compensated : List String := []
  compensationFailures : List CompensationFailure := []
  metrics : Metrics := {}
  trace : List StepTrace := []

/-- Settings of a run. -/
structure RunOptions where
  /-- Undo the completed steps of a run that fails. -/
  compensation : Bool := true
  trackContextSize : Bool := false
  maxNodeVisits : Nat := 10000
  /-- For steps that have no policy of their own. -/
  retry : RetryPolicy := {}
  deriving Inhabited

def RunOptions.ofConfig (c : EngineConfig) : RunOptions :=
  { compensation := c.engine.compensation
    trackContextSize := c.engine.trackContextSize
    maxNodeVisits := c.engine.maxNodeVisits
    retry := RetryPolicy.ofConfig c.retry }

end DurableWorkflow
