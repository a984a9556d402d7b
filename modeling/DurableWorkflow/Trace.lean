import DurableWorkflow.Time.Rfc3339

/-!
# Traces

One entry for each step that ran to an end, covering all its attempts. Nodes are numbered from zero
in the order in which they were added to their graph.
-/

namespace DurableWorkflow

abbrev NodeId := Nat

namespace NodeId

def text (n : NodeId) : String := "n" ++ toString n

def toJson (n : NodeId) : Json := .nat n

def ofJson? (j : Json) : Option NodeId := j.toNat? 32

end NodeId

/-- How the last attempt of a step ended. -/
inductive TraceOutcome where
  | succeeded
  | failed (message : String) (shouldRetry : Bool)
  | suspended (signal : String)
  deriving DecidableEq, Repr, Inhabited

namespace TraceOutcome

def isSuccess : TraceOutcome → Bool
  | succeeded => true
  | _ => false

def toJson : TraceOutcome → Json
  | succeeded => .obj [("type", .str "succeeded")]
  | failed message shouldRetry =>
    .obj [("type", .str "failed"), ("message", .str message), ("should_retry", .bool shouldRetry)]
  | suspended signal => .obj [("type", .str "suspended"), ("signal", .str signal)]

def ofJson? (j : Json) : Option TraceOutcome := do
  let (tag, rest) ← j.splitTag?
  match ← tag.toText? with
  | "succeeded" => if rest matches .arr (_ :: _) then none else some succeeded
  | "failed" =>
    let fs ← Json.Fields.ofJson? ["message", "should_retry"] rest
    some (failed (← fs.required "message" Json.toText?) (← fs.required "should_retry" Json.toBool?))
  | "suspended" =>
    let fs ← Json.Fields.ofJson? ["signal"] rest
    some (suspended (← fs.required "signal" Json.toText?))
  | _ => none

end TraceOutcome

structure StepTrace where
  step : String
  node : NodeId
  startedAt : Timestamp
  completedAt : Timestamp
  outcome : TraceOutcome
  attempts : Nat
  deriving DecidableEq, Repr, Inhabited

namespace StepTrace

def durationMillis (t : StepTrace) : Int := t.completedAt.millisSince t.startedAt

def toJson (t : StepTrace) : Json :=
  .obj [("step_name", .str t.step), ("node_id", t.node.toJson),
    ("started_at", t.startedAt.toJson), ("completed_at", t.completedAt.toJson),
    ("outcome", t.outcome.toJson), ("attempts", .nat t.attempts)]

def ofJson? (j : Json) : Option StepTrace := do
  let fs ← Json.Fields.ofJson?
    ["step_name", "node_id", "started_at", "completed_at", "outcome", "attempts"] j
  some {
    step := ← fs.required "step_name" Json.toText?
    node := ← fs.required "node_id" NodeId.ofJson?
    startedAt := ← fs.required "started_at" Timestamp.ofJson?
    completedAt := ← fs.required "completed_at" Timestamp.ofJson?
    outcome := ← fs.required "outcome" TraceOutcome.ofJson?
    attempts := ← fs.required "attempts" (Json.toNat? 32) }

end StepTrace

end DurableWorkflow
