import DurableWorkflow.Course
import DurableWorkflow.Run.Traversal

/-!
# Running a workflow

A run announces that it begins, walks the graph within the limit of the definition, undoes the
completed steps if it failed, latest first, and announces how it ended. A run that was cancelled
ends at once.
-/

namespace DurableWorkflow

namespace Environment

variable {C H X ω : Type} (env : Environment C H X ω)

/-- An operation that contains runs. -/
abbrev Op (C H X ω : Type) := Course ω (Board C H X) Report

/-- The failure of a run that took too long. -/
def lateFailure (d : Definition C H) (limit : Nanos) : Failure :=
  Failure.ofRun ("workflow " ++ d.id ++ " exceeded timeout of " ++ toString limit.seconds ++ "s")

/-- How the run ended; nothing if it was cancelled or has crashed. -/
def outcome (d : Definition C H) : Option Report → Option RunOutcome
  | none => some (.failed (lateFailure d (d.limit.getD 0)))
  | some r =>
    match r.halt with
    | .drained => some .completed
    | .failed f => some (.failed f)
    | .suspended s => some (.suspended s)
    | .cancelled | .crashed _ => none

/-- What has been undone so far. -/
structure Undone where
  compensated : List String := []
  failures : List CompensationFailure := []

def Undone.add (u : Undone) (step : String) : Work.End StepResult → Undone
  | .crash m => { u with failures := u.failures ++ [⟨step, .panicked m⟩] }
  | .done r =>
    match r.error? with
    | some e => { u with failures := u.failures ++ [⟨step, e⟩] }
    | none => { u with compensated := u.compensated ++ [step] }

/-- Undo steps in the given order. Nothing stops this, not even a request to cancel. -/
def undo (board : Board C H X) (u : Undone) :
    List (NodeId × Step C H) → Op C H X ω (Board C H X × Undone)
  | [] => pure (board, u)
  | (_, s) :: steps =>
    match s.compensate with
    | none => undo board u steps
    | some work =>
      .perform env.cancelled board (env.onBoard work) fun board e =>
        undo board (u.add s.name e) steps

/-- The last event of a run. -/
def ending (d : Definition C H) (metrics : Metrics) : RunOutcome → Option Happening
  | .completed => some (.runCompleted d.id metrics.durationMillis metrics.executed)
  | .failed f => some (.runFailed d.id f.text)
  | .suspended _ => none

/-- Undo what has to be undone and announce the end. -/
def conclude (d : Definition C H) (begin : Nat) (board : Board C H X) (outcome : RunOutcome) :
    Op C H X ω (Board C H X × RunResult C) := do
  let steps := if outcome.isFailed && env.options.compensation then
    board.ledger.completed.reverse else []
  let (board, undone) ← env.undo board {} steps
  let instant ← Course.read env.instant
  let metrics := { board.ledger.metrics with durationMillis := instant - begin }
  match ending d metrics outcome with
  | some what => Course.modify (env.announce what)
  | none => pure ()
  return (board, {
    outcome, context := board.context, compensated := undone.compensated
    compensationFailures := undone.failures, metrics, trace := board.ledger.trace })

/-- Run a definition; no result if the run is cancelled. The extra part of the board comes back as
the last checkpoint left it. A fatal checkpoint crashes the operation. -/
def run (d : Definition C H) (start : StartPoint) (context : C) (extra : X) :
    Op C H X ω (X × Option (RunResult C)) := do
  let begin ← Course.read env.instant
  Course.modify (env.announce (.runStarted d.id))
  .walk env.cancelled d.limit { context, extra } (env.traverse d start) fun board report =>
    match report.bind Report.crash?, outcome d report with
    | some m, _ => .crash m
    | none, none => pure (board.extra, none)
    | none, some outcome => do
      let (board, result) ← env.conclude d begin board outcome
      return (board.extra, some result)

end Environment

end DurableWorkflow
