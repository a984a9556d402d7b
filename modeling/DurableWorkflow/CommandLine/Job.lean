import DurableWorkflow.Coordinator.Operation
import DurableWorkflow.Expense.Workflow
import DurableWorkflow.Repository.Table

/-!
# Jobs

A job is what a command does to the world of stored claims; it ends with a value or with the reason
why it did not succeed.
-/

namespace DurableWorkflow.CommandLine

/-- Why a job did not succeed. -/
inductive Trouble where
  /-- What went wrong, and after it what each was caused by. -/
  | failed (causes : List String)
  | crashed (message : String)
  deriving DecidableEq, Repr

/-- The causes as a list of lines. -/
def Trouble.causeLines : List String → List String
  | [] => []
  | [cause] => "" :: "Caused by:" :: (cause.splitOn "\n").map ("    " ++ ·)
  | causes =>
    "" :: "Caused by:" :: (causes.zipIdx.flatMap fun (cause, i) =>
      match cause.splitOn "\n" with
      | [] => []
      | line :: more => ("    " ++ toString i ++ ": " ++ line) :: more.map ("       " ++ ·))

/-- What is printed about a failure. -/
def Trouble.lines : Trouble → List String
  | failed [] => []
  | failed (what :: causes) => ("Error: " ++ what).splitOn "\n" ++ causeLines causes
  | crashed message => [message]

/-- The world in which a service works. -/
abbrev Office := World Table Unit

abbrev Job := ExceptT Trouble (StateM Office)

/-- The causes of an error of a coordinator, itself the first. -/
def causesOf : CoordinatorError → List String
  | .repository fault => [(CoordinatorError.repository fault).message, fault.message]
  | e => [e.message]

namespace Job

/-- Say what could not be done. -/
def explained {α : Type} (what : String) (j : Job α) : Job α :=
  tryCatch j fun
    | .failed causes => throw (.failed (what :: causes))
    | t => throw t

/-- Carry out a course until it ends. -/
def course {α : Type} (c : Errand ExpenseClaim Unit Table α) : Job α := do
  let crew : Crew Office (Board ExpenseClaim Unit Instance) Report α := { world := ← get }
  let (task, crew) := crew.carryOut c
  set crew.world
  match task with
  | .ended a => return a
  | .crashed message => throw (.crashed message)
  | _ => throw (.crashed "the operation has not ended")

def operation {α : Type} (o : Operation ExpenseClaim Unit Table α) : Job α := do
  match ← course o.run with
  | .ok a => return a
  | .error e => throw (.failed (causesOf e))

/-- Take what a repository answers. -/
def answered {α : Type} (r : Except RepositoryFault α) : Job α :=
  match r with
  | .ok a => pure a
  | .error fault => throw (.failed [fault.message])

/-- Make a request to the table. -/
def request {α : Type} (ask : Table → Reply Table α) : Job α := do
  let (answer, w) := Operation.onStore ask (← get)
  set w
  answered answer

end Job

end DurableWorkflow.CommandLine
