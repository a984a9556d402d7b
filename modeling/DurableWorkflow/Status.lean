import DurableWorkflow.Json.Decode

/-!
# Status of an instance

`created → running ⇄ waiting`, ending in one of the four final statuses. Only running and waiting
alternate; a status that is not final may also be entered again.
-/

namespace DurableWorkflow

inductive Status where
  | created | running | waiting | completed | failed | cancelled | timedOut
  deriving DecidableEq, Repr, Inhabited

namespace Status

def all : List Status := [created, running, waiting, completed, failed, cancelled, timedOut]

/-- A final status is never left. -/
def isFinal : Status → Bool
  | completed | failed | cancelled | timedOut => true
  | _ => false

/-- May an instance in the first status move to the second? -/
def allows : Status → Status → Bool
  | created, t => t == created || t == running || t == failed || t == cancelled
  | running, t => t != created
  | waiting, t => t == waiting || t == running || t == cancelled || t == timedOut
  | _, _ => false

theorem mem_all (s : Status) : s ∈ all := by cases s <;> decide

theorem allows_self (s : Status) : s.allows s = !s.isFinal := by cases s <;> rfl

theorem not_allows_of_isFinal {s : Status} (h : s.isFinal = true) (t : Status) :
    s.allows t = false := by cases s <;> first | rfl | simp [isFinal] at h

def text : Status → String
  | created => "created"
  | running => "running"
  | waiting => "waiting"
  | completed => "completed"
  | failed => "failed"
  | cancelled => "cancelled"
  | timedOut => "timed_out"

instance : ToString Status := ⟨text⟩

def ofText? (s : String) : Option Status := all.find? (·.text == s)

theorem ofText?_text (s : Status) : ofText? s.text = some s := by cases s <;> decide

/-- What is said of a text that is no status. -/
def unknownMessage (s : String) : String := "unknown workflow status '" ++ s ++ "'"

def toJson (s : Status) : Json := .str s.text

/-- The name as a text, or as the only member of an object with the value `null`. -/
def ofJson? : Json → Option Status
  | .str s => ofText? s
  | .obj [(s, .null)] => ofText? s
  | _ => none

/-- The status in a tagged record, where an empty object will do for `null`. -/
def ofTagged? : Json → Option Status
  | .obj [(s, .obj [])] => ofText? s
  | j => ofJson? j

end Status

/-- A move that `Status.allows` refuses. -/
structure TransitionError where
  source : Status
  target : Status
  deriving DecidableEq, Repr

def TransitionError.message (e : TransitionError) : String :=
  "invalid status transition: " ++ e.source.text ++ " -> " ++ e.target.text

end DurableWorkflow
