import DurableWorkflow.Json.Value
import DurableWorkflow.Time.Rfc3339

/-!
# Signals

A named event from outside that a waiting instance is given.
-/

namespace DurableWorkflow

structure Signal where
  name : String
  payload : Json
  receivedAt : Timestamp
  deriving Repr, Inhabited

namespace Signal

def toJson (s : Signal) : Json :=
  .obj [("name", .str s.name), ("payload", s.payload), ("received_at", s.receivedAt.toJson)]

def ofJson? (j : Json) : Option Signal := do
  let fs ← Json.Fields.ofJson? ["name", "payload", "received_at"] j
  some {
    name := ← fs.required "name" Json.toText?
    payload := ← fs.orElse "payload" Json.null Json.toValue?
    receivedAt := ← fs.required "received_at" Timestamp.ofJson? }

end Signal

end DurableWorkflow
