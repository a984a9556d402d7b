import DurableWorkflow.Signal
import DurableWorkflow.Status
import DurableWorkflow.Trace
import DurableWorkflow.Uuid
import DurableWorkflow.Version

/-!
# Instances of a workflow

What is stored of one execution: its context, its status, what it waits for, the frontier it will
continue from, the signal it has accepted and not yet carried past the waiting node, and its
history. Every operation is a function of the instance; only `transition` changes the status.
-/

namespace DurableWorkflow

/-- Which kind of context and which definition an instance was started with. -/
structure ContextInfo where
  typeName : String
  workflow : String
  version : Version
  deriving DecidableEq, Repr, Inhabited

structure Instance where
  id : Uuid
  workflow : String
  version : Version
  contextType : String
  context : Json
  status : Status
  createdAt : Timestamp
  updatedAt : Timestamp
  /-- The signal it waits for. -/
  awaited : Option String := none
  /-- The node that waits, or that an accepted signal still has to pass. -/
  waitingNode : Option NodeId := none
  deadline : Option Timestamp := none
  /-- Nodes still to visit, the next one last. -/
  pending : List NodeId := []
  delivered : Option Signal := none
  history : List StepTrace := []
  error : Option String := none
  revision : Nat := 0
  deriving Repr, Inhabited

namespace Instance

/-- An instance that has not run. -/
def create (id : Uuid) (workflow : String) (version : Version) (contextType : String)
    (context : Json) (now : Timestamp) : Instance :=
  { id, workflow, version, contextType, context, status := .created, createdAt := now,
    updatedAt := now }

/-- Move to `target`. What the instance waited for is forgotten when it stops waiting, an accepted
signal when it is not running, and the waiting node when it ends. -/
def transition (s : Instance) (target : Status) (now : Timestamp) :
    Except TransitionError Instance :=
  if s.status.allows target then
    let leaves := s.status == .waiting && target != .waiting
    .ok { s with
      awaited := if leaves then none else s.awaited
      waitingNode := if leaves || target.isFinal then none else s.waitingNode
      deadline := if leaves then none else s.deadline
      delivered := if target == .running then s.delivered else none
      status := target
      updatedAt := now }
  else .error ⟨s.status, target⟩

/-- Wait for `signal` at `node`. -/
def enterWait (s : Instance) (signal : String) (node : NodeId) (deadline : Option Timestamp)
    (pending : List NodeId) (now : Timestamp) : Except TransitionError Instance :=
  (s.transition .waiting now).map fun s =>
    { s with awaited := some signal, waitingNode := some node, deadline, pending }

/-- Stop waiting, with `signal` on its way to `node`. -/
def acceptSignal (s : Instance) (node : NodeId) (signal : Signal) (now : Timestamp) :
    Except TransitionError Instance :=
  (s.transition .running now).map fun s =>
    { s with waitingNode := some node, delivered := some signal }

/-- The run has passed the node that the signal was for. -/
def clearDelivery (s : Instance) : Instance := { s with waitingNode := none, delivered := none }

/-- The node and the signal that have to be delivered again after a crash. -/
def pendingDelivery (s : Instance) : Option (NodeId × Signal) :=
  match s.status, s.waitingNode, s.delivered with
  | .running, some node, some signal => some (node, signal)
  | _, _, _ => none

def isWaitingFor (s : Instance) (signal : String) : Bool :=
  s.status == .waiting && s.awaited == some signal

/-- Has the deadline of the wait come? -/
def isWaitExpired (s : Instance) (now : Timestamp) : Bool :=
  s.status == .waiting && s.deadline.any (·.le now)

def contextInfo (s : Instance) : ContextInfo := ⟨s.contextType, s.workflow, s.version⟩

/-- Earlier creation first, then the smaller identifier. -/
def older (a b : Instance) : Bool :=
  if a.createdAt = b.createdAt then a.id.le b.id else a.createdAt.le b.createdAt

end Instance

end DurableWorkflow
