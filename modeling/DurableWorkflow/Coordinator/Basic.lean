import DurableWorkflow.Coordinator.Operation
import DurableWorkflow.Number.Power

/-!
# Coordinators

A coordinator runs definitions as instances that outlive it. An instance is stored before it starts,
saved after every node, parked while it waits and picked up when its signal comes. Within a
coordinator a lease keeps two calls from driving one instance; between coordinators the revision
does, because a call claims the instance by storing it before it runs anything.
-/

namespace DurableWorkflow

/-- A type of contexts, with the name under which instances are stored. -/
structure ContextKind (C : Type) where
  typeName : String
  /-- Some contexts cannot be stored. -/
  encode : C → Option Json
  decode : Json → Option C

structure Coordinator (C H R : Type) where
  number : Nat
  kind : ContextKind C
  repository : Repository R
  notifier : Notifier
  options : RunOptions := {}
  /-- How long to wait where a step does not say. -/
  defaultWait : Option Nanos := none
  definitions : List (Definition C H) := []

/-- What a call that drove an instance returns: the instance as stored, and the result of the
run. -/
structure Driven (C : Type) where
  state : Instance
  result : RunResult C

/-- What became of a wish to cancel. -/
inductive Cancelled where
  /-- The instance is cancelled. -/
  | cancelled
  /-- Whoever drives the instance has been asked to cancel it. -/
  | requested
  deriving DecidableEq, Repr

/-- The longest wait that has a deadline. -/
def longestWait : Nanos := Nanos.ofMillis (twoTo 63 - 1)

/-- When a wait that begins at `now` is over. A deadline beyond the calendar is an error. -/
def waitDeadline (limit : Option Nanos) (now : Timestamp) : Except String (Option Timestamp) :=
  match limit.filter (· ≤ longestWait) with
  | none => .ok none
  | some d =>
    match now.add? d with
    | some t => .ok (some t)
    | none => .error "`DateTime + TimeDelta` overflowed"

namespace Coordinator

variable {C H R : Type}

def ofConfig (number : Nat) (kind : ContextKind C) (repository : Repository R) (notifier : Notifier)
    (config : EngineConfig) : Coordinator C H R :=
  { number, kind, repository, notifier
    options := RunOptions.ofConfig config
    defaultWait := config.signals.defaultWaitSeconds.map Nanos.ofSeconds }

/-- Register a definition in the place of an earlier one of its name. -/
def register (c : Coordinator C H R) (d : Definition C H) : Coordinator C H R :=
  { c with definitions := d :: c.definitions.filter (·.id != d.id) }

/-- The names of the definitions in order. -/
def definitionIds (c : Coordinator C H R) : List String :=
  (c.definitions.map (·.id)).mergeSort fun a b => !(b < a)

variable (c : Coordinator C H R)

def definition (id : String) : Operation C H R (Definition C H) :=
  Operation.orThrow (.unknownDefinition id) (c.definitions.find? (·.id == id))

/-- The definition that an instance was started from; nodes have the same numbers only within one
major version. -/
def definitionFor (s : Instance) : Operation C H R (Definition C H) := do
  let d ← c.definition s.workflow
  if d.version.major = s.version.major then pure d
  else throw (.unknownDefinition (s.workflow ++ "@" ++ s.version.text))

def load (id : Uuid) : Operation C H R Instance := do
  Operation.orThrow (.notFound id) (← Operation.request (c.repository.get id))

/-- Store a changed instance. -/
def persist (s : Instance) : Operation C H R Instance := do
  match ← Operation.update (Operation.onStore (c.repository.persist s)) with
  | .stored s => pure s
  | .refused fault => throw (.repository fault)
  | .exhausted => Operation.crash Persisted.exhaustedMessage

def acquire (operation : Nat) (id : Uuid) : Operation C H R Unit := do
  unless ← Operation.update (World.acquire c.number operation id) do throw (.busy id)

def tell (notice : Notice) : Operation C H R Unit := Operation.modify (c.notifier.tell notice)

/-- The instance as a checkpoint leaves it, before it is stored. -/
def atCheckpoint (s : Instance) (context : Json) (p : Checkpoint C) (now : Timestamp) : Instance :=
  { s with
    context
    pending := p.frontier
    history := s.history ++ p.trace
    updatedAt := now }.clearDelivery

/-- Save a checkpoint. One that cannot be encoded is skipped; one that cannot be stored counts for
the next one; one for which there is no revision is fatal. -/
def save (p : Checkpoint C) (x : Instance × World R H) : Except String (Instance × World R H) :=
  let (s, w) := x
  match c.kind.encode p.context with
  | none => .ok (s, w)
  | some context =>
    let s := atCheckpoint s context p w.wall
    match Operation.onStore (c.repository.persist s) w with
    | (.stored s, w) => .ok (s, w)
    | (.refused _, w) => .ok (s, w)
    | (.exhausted, _) => .error Persisted.exhaustedMessage

/-- The environment of the runs of an instance. -/
def environment (id : Uuid) : Environment C H Instance (World R H) where
  options := c.options
  runId := id
  cancelled := fun w => w.isCancelled c.number id
  wall := (·.wall)
  instant := (·.millis)
  publish := World.publish
  memory := (·.memory)
  setMemory := fun memory w => { w with memory }
  encode := c.kind.encode
  save := c.save

/-- Store that the run of an instance was cancelled. -/
def settleCancelled {α : Type} (s : Instance) : Operation C H R α := do
  let now ← Operation.now
  let s ← Operation.moved (s.transition .cancelled now)
  let s ← c.persist { s with error := some "cancelled" }
  Operation.announce s.id .runCancelled
  throw (.cancelled s.id)

/-- Store where a run of an instance has stopped. -/
def settle (s : Instance) : RunOutcome → Operation C H R Instance
  | .completed => do
    let now ← Operation.now
    let s ← Operation.moved (s.transition .completed now)
    let s ← c.persist { s with pending := [] }
    c.tell (.completed s)
    return s
  | .failed failure => do
    let now ← Operation.now
    let s ← Operation.moved (s.transition .failed now)
    let s ← c.persist { s with pending := [], error := some failure.text }
    c.tell (.errored s failure.text)
    return s
  | .suspended w => do
    let now ← Operation.now
    match waitDeadline (w.limit.or c.defaultWait) now with
    | .error m => Operation.crash m
    | .ok deadline =>
      let s ← Operation.moved (s.enterWait w.signal w.node deadline w.pending now)
      let s ← c.persist s
      c.tell (.approvalRequested s)
      return s

/-- Run an instance that has been claimed, and store where the run stops. -/
def drive (d : Definition C H) (s : Instance) (context : C) (start : StartPoint) :
    Operation C H R (Driven C) := do
  let (last, result) ← Operation.ofErrand ((c.environment s.id).run d start context s)
  match result with
  | none => c.settleCancelled last
  | some result =>
    let context ← Operation.orThrow .serialization (c.kind.encode result.context)
    let history := last.history.take s.history.length ++ result.trace
    let state ← c.settle { last with context, history } result.outcome
    return { state, result }

/-- Create an instance of a definition and run it until it ends or waits. -/
def start (operation : Nat) (definition : String) (context : C) : Operation C H R (Driven C) :=
  Operation.releasing operation do
    let d ← c.definition definition
    let encoded ← Operation.orThrow .serialization (c.kind.encode context)
    let id ← Operation.update World.mint
    let now ← Operation.now
    let s := Instance.create id d.id d.version c.kind.typeName encoded now
    Operation.request (c.repository.save s)
    c.acquire operation id
    let s ← Operation.moved (s.transition .running now)
    let s ← c.persist s
    c.drive d s context .root

/-- Deliver a signal to an instance that waits for exactly this one, and run the instance on. -/
def signal (operation : Nat) (id : Uuid) (name : String) (payload : Json) :
    Operation C H R (Driven C) :=
  Operation.releasing operation do
    c.acquire operation id
    let s ← c.load id
    let node ← Operation.orThrow (.notWaiting id name s.status)
      (if s.isWaitingFor name then s.waitingNode else none)
    let d ← c.definitionFor s
    let context ← Operation.orThrow .serialization (c.kind.decode s.context)
    let now ← Operation.now
    let signal : Signal := ⟨name, payload, now⟩
    let s ← Operation.moved (s.acceptSignal node signal now)
    let s ← c.persist s
    Operation.announce id (.runResumed name)
    c.drive d s context (.signal node s.pending signal)

/-- The running instance that is to be resumed. -/
def revive (s : Instance) (now : Timestamp) : Except CoordinatorError Instance :=
  match s.status with
  | .running => .ok s
  | .created =>
    match s.transition .running now with
    | .ok s => .ok s
    | .error e => .error (.invalidTransition e)
  | .waiting => .error (.awaitingSignal s.id (s.awaited.getD ""))
  | final => .error (.invalidTransition ⟨final, .running⟩)

/-- Where a resumed instance goes on: with a signal that was accepted, at the root if it has done
nothing, or else at its frontier. -/
def restartPoint (s : Instance) : StartPoint :=
  match s.pendingDelivery with
  | some (node, signal) => .signal node s.pending signal
  | none => if s.pending.isEmpty && s.history.isEmpty then .root else .frontier s.pending

/-- Run an instance on from its last checkpoint. -/
def resume (operation : Nat) (id : Uuid) : Operation C H R (Driven C) :=
  Operation.releasing operation do
    c.acquire operation id
    let s ← c.load id
    let now ← Operation.now
    let s ← (revive s now : Except CoordinatorError Instance)
    let d ← c.definitionFor s
    let context ← Operation.orThrow .serialization (c.kind.decode s.context)
    let start := restartPoint s
    let s ← c.persist s
    c.drive d s context start

/-- Take the lease on an instance, or ask whoever has it to cancel. -/
def acquireOrCancel (operation : Nat) (id : Uuid) (w : World R H) : Bool × World R H :=
  match World.acquire c.number operation id w with
  | (true, w) => (true, w)
  | (false, _) => (false, (World.requestCancel c.number id w).2)

/-- Cancel an instance, through its driver if it has one. -/
def cancel (operation : Nat) (id : Uuid) : Operation C H R Cancelled :=
  Operation.releasing operation do
    if ← Operation.update (c.acquireOrCancel operation id) then
      let s ← c.load id
      let now ← Operation.now
      let s ← Operation.moved (s.transition .cancelled now)
      let _ ← c.persist s
      Operation.modify (World.release operation)
      Operation.announce id .runCancelled
      return .cancelled
    else return .requested

end Coordinator

/-!
## Dispatchers

Who sends a signal knows only the identifier of the instance. A dispatcher looks up its type of
context and hands the signal to the coordinator of that type.
-/

structure Dispatcher (C H R : Type) where
  repository : Repository R
  /-- Coordinators of different types of context. -/
  targets : List (Coordinator C H R) := []

namespace Dispatcher

variable {C H R : Type}

/-- Route instances to a coordinator, in the place of an earlier one of its type. -/
def register (d : Dispatcher C H R) (c : Coordinator C H R) : Dispatcher C H R :=
  { d with targets := c :: d.targets.filter (·.kind.typeName != c.kind.typeName) }

/-- Deliver a signal through the coordinator of the instance. -/
def dispatch (d : Dispatcher C H R) (operation : Nat) (id : Uuid) (name : String) (payload : Json) :
    Operation C H R Instance := do
  let info ← Operation.orThrow (.notFound id) (← Operation.request (d.repository.contextInfo id))
  match d.targets.find? (·.kind.typeName == info.typeName) with
  | none =>
    throw (.unknownDefinition (info.workflow ++ " (context type " ++ info.typeName ++ ")"))
  | some c => return (← c.signal operation id name payload).state

end Dispatcher

end DurableWorkflow
