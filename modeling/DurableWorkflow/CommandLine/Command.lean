import DurableWorkflow.Amount
import DurableWorkflow.CommandLine.Grammar
import DurableWorkflow.Status
import DurableWorkflow.Uuid

/-!
# The commands

What can be asked of the stored expense claims from the command line, and the grammar of it.
-/

namespace DurableWorkflow.CommandLine

/-- Which instances to list. -/
inductive Choice where
  | all
  | inStatus (status : Status)
  | waitingFor (signal : String)
  deriving DecidableEq, Repr

inductive Command where
  | start (employee : String) (cents : Nat) (description : String)
  | list (choice : Choice)
  | inspect (id : Uuid)
  | signal (id : Uuid) (name : String) (payload : Option String)
  | approve (id : Uuid) (approver : Option String) (reject : Bool)
  | cancel (id : Uuid)
  | resume (id : Uuid)
  | delete (id : Uuid)
  /-- End the waits that are over, once or again and again. -/
  | sweep (watch : Bool)
  | definitions
  deriving DecidableEq, Repr

/-- A command and where and how it is carried out. -/
structure Call where
  command : Command
  /-- Print JSON? -/
  json : Bool := false
  dataDir : Option String := none
  deriving DecidableEq, Repr

/-- What a command line asks for, with its values read. -/
inductive Request where
  | call (c : Call)
  | help (verb : Option Verb)
  | version (verb : Option Verb)

def instanceId : Operand := { name := "INSTANCE_ID", accepts := fun w => (Uuid.ofText? w).isSome }

def startVerb : Verb where
  name := "start"
  about := "Submit an expense claim to the approval workflow"
  switches := [
    { name := "employee", arity := .value "EMPLOYEE", required := true
      about := "Employee filing the claim" },
    { name := "amount", arity := .value "AMOUNT", required := true
      about := "Claimed amount, e.g. 42.50", accepts := fun w => (Amount.parse w).toOption.isSome },
    { name := "description", arity := .value "DESCRIPTION", about := "What the money was spent on"
      default? := some "" }]

def listVerb : Verb where
  name := "list"
  aliases := ["ls"]
  about := "List workflow instances"
  switches := [
    { name := "status", arity := .value "STATUS"
      about := "Only instances in this status (created, running, waiting, ...)"
      accepts := fun w => (Status.ofText? w).isSome },
    { name := "signal", arity := .value "SIGNAL"
      about := "Only instances waiting for this signal" }]
  conflicts := [("signal", "status")]

def showVerb : Verb where
  name := "show"
  about := "Show one instance with its execution history"
  operands := [instanceId]

def signalVerb : Verb where
  name := "signal"
  about := "Deliver a signal to a waiting instance"
  operands := [instanceId, { name := "SIGNAL", about := "Signal name the instance is waiting for" }]
  switches := [
    { name := "payload", arity := .value "PAYLOAD"
      about := "JSON payload handed to the waiting step" }]

def approveVerb : Verb where
  name := "approve"
  about := "Approve (or reject) an expense claim waiting for a manager"
  operands := [instanceId]
  switches := [
    { name := "approver", arity := .value "APPROVER", about := "Name recorded as the approver" },
    { name := "reject", about := "Reject the claim instead" }]

def cancelVerb : Verb where
  name := "cancel"
  about := "Cancel an instance that has not finished"
  operands := [instanceId]

def resumeVerb : Verb where
  name := "resume"
  about := "Continue a running instance from its last checkpoint"
  operands := [instanceId]

def deleteVerb : Verb where
  name := "delete"
  aliases := ["rm"]
  about := "Remove an instance from storage"
  operands := [instanceId]

def sweepVerb : Verb where
  name := "sweep"
  about := "Time out instances whose wait deadline has passed"
  switches := [
    { name := "watch", about := "Keep sweeping at the configured interval until Ctrl+C" }]

def definitionsVerb : Verb where
  name := "definitions"
  about := "List registered workflow definitions"

/-- The variable of the environment that names the data directory. -/
def dataDirVariable : String := "WAYPOINT_DATA_DIR"

/-- The grammar of the program. -/
def grammar : Grammar where
  program := "wpt"
  about := "Run and inspect durable workflows"
  version := "0.1.0"
  switches := [
    { name := "json", about := "Output machine-readable JSON instead of styled text" },
    { name := "quiet", about := "Suppress all output except errors" },
    { name := "verbose", letter := some 'v', arity := .repeated
      about := "Detailed output (-v for verbose, -vv for debug/trace)" },
    { name := "data-dir", arity := .value "DATA_DIR"
      about := "Directory holding config.toml and the database"
      accepts := fun w => !w.isEmpty, environment := some dataDirVariable },
    { name := "otel", about := "Export spans to stdout through OpenTelemetry" }]
  verbs := [startVerb, listVerb, showVerb, signalVerb, approveVerb, cancelVerb, resumeVerb,
    deleteVerb, sweepVerb, definitionsVerb]

/-- The command with the values it was given. -/
def Command.ofGiven? (g : Given) : Option Command :=
  let id := Uuid.ofText? (g.operand 0)
  match g.verb.name with
  | "start" => do
    let cents ← (Amount.parse (← g.value? "amount")).toOption
    some (.start (← g.value? "employee") cents ((g.value? "description").getD ""))
  | "list" =>
    match (g.value? "status").bind Status.ofText?, g.value? "signal" with
    | some st, _ => some (.list (.inStatus st))
    | none, some name => some (.list (.waitingFor name))
    | none, none => some (.list .all)
  | "show" => id.map .inspect
  | "signal" => id.map fun id => .signal id (g.operand 1) (g.value? "payload")
  | "approve" => id.map fun id => .approve id (g.value? "approver") (g.has "reject")
  | "cancel" => id.map .cancel
  | "resume" => id.map .resume
  | "delete" => id.map .delete
  | "sweep" => some (.sweep (g.has "watch"))
  | "definitions" => some .definitions
  | _ => none

/-- Read the words of a command line. -/
def Request.ofWords (words : List String) : Except Misuse Request := do
  match ← grammar.read words with
  | .help verb => return .help verb
  | .version verb => return .version verb
  | .command given =>
    match Command.ofGiven? given with
    | some command =>
      return .call { command, json := given.has "json", dataDir := given.value? "data-dir" }
    | none => throw .noCommand

end DurableWorkflow.CommandLine
