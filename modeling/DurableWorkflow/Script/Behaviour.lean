import DurableWorkflow.Json.Value
import DurableWorkflow.Number.Power
import DurableWorkflow.Step

/-!
# Behaviours

What a scripted step does when it is called: some acts one after the other, and then an outcome. A
step has a list of behaviours for each of its methods: the first call follows the first of them,
the next call the second, and every call beyond the last follows the last.
-/

namespace DurableWorkflow

/-!
## Contexts of scripted workflows

A scripted workflow works on notes: a log and a set of named variables.
-/

structure Notes where
  log : List String := []
  /-- Sorted by name. -/
  vars : List (String × Json) := []
  deriving Inhabited, Repr

namespace Notes

def var? (n : Notes) (name : String) : Option Json :=
  (n.vars.find? (·.1 == name)).map (·.2)

def write (n : Notes) (line : String) : Notes := { n with log := n.log ++ [line] }

def set (n : Notes) (name : String) (value : Json) : Notes :=
  { n with vars := Json.insertMember name value n.vars }

def unset (n : Notes) (name : String) : Notes :=
  { n with vars := n.vars.filter (·.1 != name) }

/-- A variable as a signed integer of 64 bits. -/
def int? (n : Notes) (name : String) : Option Int :=
  (n.var? name).bind (Json.toIntIn? (-(twoTo 63 : Int)) (twoTo 63 - 1 : Nat))

/-- Add to a variable modulo `2 ^ 64`; what is no integer counts as zero. -/
def add (n : Notes) (name : String) (k : Int) : Notes :=
  n.set name (.int (((n.int? name).getD 0 + k).bmod (twoTo 64)))

/-- Notes with a variable `poison` can be read but not written. -/
def isWritable (n : Notes) : Bool := n.vars.all (·.1 != "poison")

def members (n : Notes) : List (String × Json) :=
  [("log", Json.ofList .str n.log), ("vars", .obj n.vars)]

def varsOfJson? : Json → Option (List (String × Json))
  | .obj members => do
    let members ← members.mapM fun (n, j) => (Json.toValue? j).map fun j => (n, j)
    some (Json.canonicalMembers members [])
  | _ => none

def ofFields? (fs : Json.Fields) : Option Notes := do
  some {
    log := ← fs.required "log" (Json.toList? Json.toText?)
    vars := ← fs.orElse "vars" [] varsOfJson? }

def ofJson? (j : Json) : Option Notes := (Json.Fields.ofJson? ["log", "vars"] j).bind ofFields?

def toJson? (n : Notes) : Option Json := if n.isWritable then some (.obj n.members) else none

end Notes

/-! ## What a step does -/

/-- What outlives a single run of scripted steps. -/
structure Tally where
  /-- How often each method with several behaviours has been called. -/
  calls : List (Nat × Nat) := []
  /-- Has a step asked for the run to be cancelled? -/
  stop : Bool := false
  deriving Inhabited, Repr

namespace Tally

def count (t : Tally) (method : Nat) : Nat := ((t.calls.find? (·.1 == method)).map (·.2)).getD 0

def tick (t : Tally) (method : Nat) : Tally :=
  { t with calls := (method, t.count method + 1) :: t.calls.filter (·.1 != method) }

end Tally

inductive Act where
  | log (line : String)
  | set (name : String) (value : Json)
  | unset (name : String)
  | add (name : String) (n : Int)
  | pad (name : String) (length : Nat)
  | payload (name field : String)
  | sleep (millis : Nat)
  | awaitCancel
  | cancelRun

inductive Out where
  | ok
  | fail (message : String)
  | retry (message : String)
  | retryTimedOut (millis : Nat)
  | failInfrastructure (message : String)
  | suspend (signal : String)
  | suspendFor (signal : String) (millis : Nat)
  | crash (message : String)
  /-- Succeed if the field of the payload is `true`. -/
  | approve (field message : String)

structure Behaviour where
  acts : List Act := []
  out : Out := .ok

/-- Work of a scripted step. -/
abbrev ScriptWork := Work (Notes × Tally)

/-- Change the notes. -/
def ScriptWork.note (f : Notes → Notes) : ScriptWork Unit := Work.modify fun s => (f s.1, s.2)

def Act.play (payload : Json) : Act → ScriptWork Unit
  | log line => .note (·.write line)
  | set name value => .note (·.set name value)
  | unset name => .note (·.unset name)
  | add name n => .note (·.add name n)
  | pad name length => .note (·.set name (.str (String.ofList (List.replicate length 'x'))))
  | Act.payload name field => .note (·.set name (payload.member field))
  | sleep millis => Work.wait (Nanos.ofMillis millis)
  | awaitCancel => Work.untilCancelled
  | cancelRun => Work.modify fun s => (s.1, { s.2 with stop := true })

/-- What the step called `step` reports. -/
def Out.play (step : String) (payload : Json) : Out → ScriptWork StepResult
  | ok => pure .success
  | fail m => pure (.failure (.failed m))
  | retry m => pure (.retryable (.failed m))
  | retryTimedOut millis => pure (.retryable (.timedOut step (Nanos.ofMillis millis)))
  | failInfrastructure m => pure (.failure (.infrastructure m))
  | suspend signal => pure (.suspend signal)
  | suspendFor signal millis => pure (.suspendFor signal (Nanos.ofMillis millis))
  | crash m => .crash m
  | approve field m =>
    match payload.member field with
    | .bool true => pure .success
    | _ => pure (.failure (.failed m))

def Behaviour.play (step : String) (payload : Json) (b : Behaviour) : ScriptWork StepResult := do
  b.acts.forM (Act.play payload)
  b.out.play step payload

/-- The behaviour of the call after `count` calls. -/
def Behaviour.pick : List Behaviour → Nat → Behaviour
  | [], _ => {}
  | [b], _ => b
  | b :: _, 0 => b
  | _ :: bs, count + 1 => pick bs count

/-- One call of a method; calls are counted where that matters. -/
def Behaviour.playNext (step : String) (method : Nat) (behaviours : List Behaviour)
    (payload : Json) : ScriptWork StepResult :=
  match behaviours with
  | [] => ({} : Behaviour).play step payload
  | [b] => b.play step payload
  | bs => do
    let count ← Work.update fun (n, t) => (t.count method, n, t.tick method)
    (pick bs count).play step payload

end DurableWorkflow
