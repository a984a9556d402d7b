import DurableWorkflow.Instance.Basic

/-!
# Events

What is announced while workflows run. Runs of a stored instance bear the identifier of the
instance.
-/

namespace DurableWorkflow

/-- What happened to a run. -/
inductive Happening where
  | runStarted (workflow : String)
  | stepCompleted (node : NodeId) (step : String) (attempts : Nat) (durationMillis : Nat)
  | stepFailed (node : NodeId) (step : String) (error : String) (willRetry : Bool)
  | runSuspended (node : NodeId) (signal : String)
  | runResumed (signal : String)
  | runCompleted (workflow : String) (durationMillis : Nat) (stepsExecuted : Nat)
  | runFailed (workflow : String) (error : String)
  | runCancelled
  | runTimedOut (signal : String)
  | approvalRequested (workflow : String) (signal : String) (deadline : Option Timestamp)
  | instanceFinished (workflow : String) (status : Status) (error : Option String)
  deriving DecidableEq, Repr, Inhabited

structure Event where
  run : Uuid
  what : Happening
  deriving DecidableEq, Repr, Inhabited

namespace Event

/-- The tag of the event and the members after `run_id`. -/
def members : Happening → String × List (String × Json)
  | .runStarted workflow => ("run_started", [("workflow_id", .str workflow)])
  | .stepCompleted node step attempts millis =>
    ("step_completed", [("node_id", node.toJson), ("step_name", .str step),
      ("attempts", .nat attempts), ("duration_ms", .nat millis)])
  | .stepFailed node step error willRetry =>
    ("step_failed", [("node_id", node.toJson), ("step_name", .str step), ("error", .str error),
      ("will_retry", .bool willRetry)])
  | .runSuspended node signal =>
    ("run_suspended", [("node_id", node.toJson), ("signal", .str signal)])
  | .runResumed signal => ("run_resumed", [("signal", .str signal)])
  | .runCompleted workflow millis steps =>
    ("run_completed", [("workflow_id", .str workflow), ("duration_ms", .nat millis),
      ("steps_executed", .nat steps)])
  | .runFailed workflow error =>
    ("run_failed", [("workflow_id", .str workflow), ("error", .str error)])
  | .runCancelled => ("run_cancelled", [])
  | .runTimedOut signal => ("run_timed_out", [("signal", .str signal)])
  | .approvalRequested workflow signal deadline =>
    ("approval_requested", [("workflow_id", .str workflow), ("signal", .str signal),
      ("deadline", Json.ofOption Timestamp.toJson deadline)])
  | .instanceFinished workflow status error =>
    ("instance_finished", [("workflow_id", .str workflow), ("status", status.toJson),
      ("error", Json.ofOption .str error)])

def toJson (e : Event) : Json :=
  let (tag, rest) := members e.what
  .obj ([("type", .str tag), ("run_id", e.run.toJson)] ++ rest)

def ofJson? (j : Json) : Option Event := do
  let (tag, rest) ← j.splitTag?
  let fields := fun names => Json.Fields.ofJson? ("run_id" :: names) rest
  let text := fun (fs : Json.Fields) name => fs.required name Json.toText?
  let event := fun (fs : Json.Fields) (what : Happening) =>
    (fs.required "run_id" Uuid.ofJson?).map fun run => (⟨run, what⟩ : Event)
  match ← tag.toText? with
  | "run_started" =>
    let fs ← fields ["workflow_id"]
    event fs (.runStarted (← text fs "workflow_id"))
  | "step_completed" =>
    let fs ← fields ["node_id", "step_name", "attempts", "duration_ms"]
    event fs (.stepCompleted (← fs.required "node_id" NodeId.ofJson?) (← text fs "step_name")
      (← fs.required "attempts" (Json.toNat? 32)) (← fs.required "duration_ms" (Json.toNat? 64)))
  | "step_failed" =>
    let fs ← fields ["node_id", "step_name", "error", "will_retry"]
    event fs (.stepFailed (← fs.required "node_id" NodeId.ofJson?) (← text fs "step_name")
      (← text fs "error") (← fs.required "will_retry" Json.toBool?))
  | "run_suspended" =>
    let fs ← fields ["node_id", "signal"]
    event fs (.runSuspended (← fs.required "node_id" NodeId.ofJson?) (← text fs "signal"))
  | "run_resumed" =>
    let fs ← fields ["signal"]
    event fs (.runResumed (← text fs "signal"))
  | "run_completed" =>
    let fs ← fields ["workflow_id", "duration_ms", "steps_executed"]
    event fs (.runCompleted (← text fs "workflow_id") (← fs.required "duration_ms" (Json.toNat? 64))
      (← fs.required "steps_executed" (Json.toNat? 32)))
  | "run_failed" =>
    let fs ← fields ["workflow_id", "error"]
    event fs (.runFailed (← text fs "workflow_id") (← text fs "error"))
  | "run_cancelled" =>
    let fs ← fields []
    event fs .runCancelled
  | "run_timed_out" =>
    let fs ← fields ["signal"]
    event fs (.runTimedOut (← text fs "signal"))
  | "approval_requested" =>
    let fs ← fields ["workflow_id", "signal", "deadline"]
    event fs (.approvalRequested (← text fs "workflow_id") (← text fs "signal")
      (← fs.nullable "deadline" Timestamp.ofJson?))
  | "instance_finished" =>
    let fs ← fields ["workflow_id", "status", "error"]
    event fs (.instanceFinished (← text fs "workflow_id") (← fs.required "status" Status.ofTagged?)
      (← fs.nullable "error" Json.toText?))
  | _ => none

end Event

end DurableWorkflow
