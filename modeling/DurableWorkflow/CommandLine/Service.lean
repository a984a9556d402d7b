import DurableWorkflow.CommandLine.Command
import DurableWorkflow.CommandLine.Job
import DurableWorkflow.CommandLine.Page
import DurableWorkflow.Coordinator.Basic
import DurableWorkflow.Coordinator.Sweeper
import DurableWorkflow.DataDir
import DurableWorkflow.Database
import DurableWorkflow.Expense.Workflow
import DurableWorkflow.Json.Value

/-!
# Carrying commands out

A service has one coordinator of expense claims over one table, and around it what else the commands
need.
-/

namespace DurableWorkflow.CommandLine

open Page

structure Service where
  dataDir : String
  /-- Where the table is kept. -/
  database : Database
  /-- How long to wait between two sweeps. -/
  interval : Nanos
  coordinator : Coordinator ExpenseClaim Unit Table

/-- How expense claims are stored. -/
def claimKind : ContextKind ExpenseClaim where
  typeName := "wpt::demo::ExpenseClaim"
  encode := fun c => some c.toJson.canonical
  decode := ExpenseClaim.ofJson?

namespace Service

/-- The database of a configuration. -/
def databaseOf (dataDir : String) (config : EngineConfig) : Except Trouble Database :=
  let url := config.databaseUrl.getD (DataDir.databaseUrl dataDir)
  match Database.ofUrl url with
  | .ok database => .ok database
  | .error fault =>
    .error (.failed ["Failed to open database at " ++ url,
      "error with configuration: " ++ fault.message, fault.message])

/-- The service in a data directory, if its database can be found and the workflow of the claims
can be compiled. -/
def ofConfig (dataDir : String) (config : EngineConfig) : Except Trouble Service := do
  let database ← databaseOf dataDir config
  let coordinator := Coordinator.ofConfig 0 claimKind Table.repository Notifier.announcing config
  match (ExpenseClaim.program (H := Unit)).compile {} with
  | .error e => throw (.failed ["Invalid expense workflow", e.message])
  | .ok d =>
    return {
      dataDir, database
      interval := Nanos.ofSeconds (max 1 config.signals.sweepIntervalSeconds)
      coordinator := coordinator.register d }

variable (v : Service)

/-- The number of the operation of a command; a command has only one. -/
def operationNumber : Nat := 1

def dispatcher : Dispatcher ExpenseClaim Unit Table :=
  Dispatcher.register { repository := v.coordinator.repository } v.coordinator

def sweeper : Sweeper Table := ⟨v.coordinator.repository, v.coordinator.notifier⟩

def sweep : Job (List Uuid) := do
  let now := (← get).wall
  Job.answered (← Job.course (v.sweeper.sweep now))

/-- Deliver a signal to whichever instance it is for. -/
def deliver (json : Bool) (id : Uuid) (name : String) (payload : Json) : Job Page := do
  let s ← Job.explained ("Failed to deliver '" ++ name ++ "' to " ++ id.text)
    (Job.operation (v.dispatcher.dispatch operationNumber id name payload))
  return instancePage json ("* Delivered '" ++ name ++ "'") s []

/-- The instances that are to be listed. -/
def listed (choice : Choice) : Job (List Instance) := do
  let r := v.coordinator.repository
  match choice with
  | .inStatus status => Job.request (r.listByStatus status)
  | .waitingFor signal => Job.request (r.listWaiting (some signal))
  | .all =>
    let all ← Status.all.mapM fun status => Job.request (r.listByStatus status)
    return all.flatten.mergeSort fun a b => a.createdAt.le b.createdAt

/-- Carry out a command. -/
def perform (json : Bool) : Command → Job Page
  | .start employee cents description => do
    let d ← Job.explained "Failed to start expense workflow"
      (Job.operation (v.coordinator.start operationNumber ExpenseClaim.workflowId
        { employee, cents, description }))
    let hint := if d.state.status = .waiting then
        [line ("Approve with: wpt approve " ++ d.state.id.text)]
      else []
    return instancePage json
      ("* Started '" ++ ExpenseClaim.workflowId ++ "' for " ++ Amount.text cents) d.state hint
  | .list choice => return listPage json (← v.listed choice)
  | .inspect id => return inspectPage json (← Job.operation (v.coordinator.load id))
  | .signal id name none => v.deliver json id name .null
  | .signal id name (some text) =>
    match Json.parseValue text with
    | .ok payload => v.deliver json id name payload
    | .error message => throw (.failed ["Invalid JSON payload", message])
  | .approve id approver reject =>
    let name := (approver.map fun a => ("approver", Json.str a)).toList
    v.deliver json id ExpenseClaim.approvalSignal (.obj (("approved", .bool !reject) :: name))
  | .cancel id => do
    let outcome ← Job.operation (v.coordinator.cancel operationNumber id)
    let s ← Job.operation (v.coordinator.load id)
    if json then return .document s.toJson true
    return spaced [line (match outcome with
      | .cancelled => "* Cancelled " ++ id.text
      | .requested =>
        "* Cancellation requested for " ++ id.text ++ " (status: " ++ s.status.text ++ ")")]
  | .resume id => do
    let d ← Job.operation (v.coordinator.resume operationNumber id)
    return instancePage json ("* Resumed " ++ id.text) d.state []
  | .delete id => do
    unless ← Job.request (v.coordinator.repository.delete id) do
      throw (.failed ["Workflow instance " ++ id.text ++ " not found"])
    if json then return .document (.obj [("deleted", id.toJson)]) false
    return spaced [line ("* Deleted " ++ id.text)]
  | .sweep false => return sweepPage json (← v.sweep)
  | .sweep true =>
    return .blocks (if json then []
      else [line ("* Sweeping every " ++ toString v.interval.seconds ++ "s"),
        line "Press Ctrl+C to stop"])
  | .definitions =>
    let ids := v.coordinator.definitionIds
    return if json then .document (Json.ofList .str ids) true
      else spaced (ids.map line ++ [.line "", line ("Data dir: " ++ v.dataDir)])

end Service

end DurableWorkflow.CommandLine
