import DurableWorkflow.Instance.Basic

/-!
# Instances as JSON

Fields that hold nothing are left out, except the lists and the revision; on reading, any of these
may be missing.
-/

namespace DurableWorkflow

namespace ContextInfo

def toJson (c : ContextInfo) : Json :=
  .obj [("type_name", .str c.typeName), ("workflow_id", .str c.workflow),
    ("workflow_version", c.version.toJson)]

def ofJson? (j : Json) : Option ContextInfo := do
  let fs ← Json.Fields.ofJson? ["type_name", "workflow_id", "workflow_version"] j
  some {
    typeName := ← fs.required "type_name" Json.toText?
    workflow := ← fs.required "workflow_id" Json.toText?
    version := ← fs.required "workflow_version" Version.ofJson? }

end ContextInfo

namespace Instance

/-- A member only where there is a value. -/
def given (name : String) (f : α → Json) : Option α → List (String × Json)
  | none => []
  | some a => [(name, f a)]

def toJson (s : Instance) : Json :=
  .obj (
    [("instance_id", s.id.toJson), ("workflow_id", .str s.workflow),
      ("workflow_version", s.version.toJson), ("context_type", .str s.contextType),
      ("context", s.context), ("status", s.status.toJson), ("created_at", s.createdAt.toJson),
      ("updated_at", s.updatedAt.toJson)]
    ++ given "waiting_signal" .str s.awaited
    ++ given "waiting_node" NodeId.toJson s.waitingNode
    ++ given "wait_deadline" Timestamp.toJson s.deadline
    ++ [("pending", Json.ofList NodeId.toJson s.pending)]
    ++ given "delivered_signal" Signal.toJson s.delivered
    ++ [("history", Json.ofList StepTrace.toJson s.history)]
    ++ given "error" .str s.error
    ++ [("revision", .nat s.revision)])

def fieldNames : List String :=
  ["instance_id", "workflow_id", "workflow_version", "context_type", "context", "status",
    "created_at", "updated_at", "waiting_signal", "waiting_node", "wait_deadline", "pending",
    "delivered_signal", "history", "error", "revision"]

def ofJson? (j : Json) : Option Instance := do
  let fs ← Json.Fields.ofJson? fieldNames j
  some {
    id := ← fs.required "instance_id" Uuid.ofJson?
    workflow := ← fs.required "workflow_id" Json.toText?
    version := ← fs.required "workflow_version" Version.ofJson?
    contextType := ← fs.required "context_type" Json.toText?
    context := ← fs.required "context" Json.toValue?
    status := ← fs.required "status" Status.ofJson?
    createdAt := ← fs.required "created_at" Timestamp.ofJson?
    updatedAt := ← fs.required "updated_at" Timestamp.ofJson?
    awaited := ← fs.optional "waiting_signal" Json.toText?
    waitingNode := ← fs.optional "waiting_node" NodeId.ofJson?
    deadline := ← fs.optional "wait_deadline" Timestamp.ofJson?
    pending := ← fs.orElse "pending" [] (Json.toList? NodeId.ofJson?)
    delivered := ← fs.optional "delivered_signal" Signal.ofJson?
    history := ← fs.orElse "history" [] (Json.toList? StepTrace.ofJson?)
    error := ← fs.optional "error" Json.toText?
    revision := ← fs.orElse "revision" 0 (Json.toNat? 64) }

end Instance

end DurableWorkflow
