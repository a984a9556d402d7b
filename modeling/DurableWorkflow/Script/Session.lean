import DurableWorkflow.Coordinator.Basic
import DurableWorkflow.Coordinator.Sweeper
import DurableWorkflow.Repository.Faulty
import DurableWorkflow.Script.Subject

/-!
# Sessions

Three coordinators, one for each kind of subject, and sweepers and dispatchers, all over one store
with appointed mishaps. Operations are carried out one after the other in the foreground, while
others that were begun before go on in the background.
-/

namespace DurableWorkflow

/-- What an operation answers. -/
inductive Answer where
  | driven (r : Except CoordinatorError (Driven Subject))
  | cancelled (r : Except CoordinatorError Cancelled)
  | found (r : Except CoordinatorError Instance)
  | swept (r : Except RepositoryFault (List Uuid))
  | nothing

variable {R : Type}

/-- An operation of a session. -/
abbrev SessionErrand (R : Type) := Errand Subject Tally (Faulty R) Answer

/-- How the coordinators of a session are made. -/
structure SessionSettings where
  notifier : Notifier := .silent
  config : Option EngineConfig := none
  options : Option RunOptions := none
  defaultWait : Option Nanos := none

structure Session (R : Type) where
  /-- The repository without mishaps. -/
  inner : Repository R
  repository : Repository (Faulty R)
  settings : SessionSettings
  crew : Crew (World (Faulty R) Tally) (Board Subject Tally Instance) Report Answer
  coordinators : SubjectKind → Coordinator Subject Tally (Faulty R)
  /-- How often the coordinators have been made anew. -/
  generation : Nat := 0
  /-- How many operations have been begun. -/
  operations : Nat := 0
  /-- How many step methods have been numbered. -/
  methods : Nat := 0

namespace Session

def coordinator (repository : Repository (Faulty R)) (settings : SessionSettings)
    (generation : Nat) (kind : SubjectKind) : Coordinator Subject Tally (Faulty R) :=
  let number := 3 * generation + match kind with
    | .alpha => 0
    | .beta => 1
    | .expense => 2
  let c := Coordinator.ofConfig number kind.contextKind repository settings.notifier
    (settings.config.getD {})
  let options := settings.options.getD (if settings.config.isSome then c.options else {})
  { c with options, defaultWait := settings.defaultWait.or c.defaultWait }

def begin (inner : Repository R) (store : R) (appointments : List Appointment)
    (settings : SessionSettings) (wall : Timestamp) : Session R :=
  let repository := Faulty.repository inner appointments
  { inner, repository, settings
    crew := { world := { store := { store }, memory := {}, wall } }
    coordinators := coordinator repository settings 0 }

def world (s : Session R) : World (Faulty R) Tally := s.crew.world

def setWorld (s : Session R) (w : World (Faulty R) Tally) : Session R :=
  { s with crew := { s.crew with world := w } }

/-- New coordinators, as after a restart: without definitions and without leases. -/
def restart (s : Session R) : Session R :=
  let generation := s.generation + 1
  { s with generation, coordinators := coordinator s.repository s.settings generation }

def setCoordinator (s : Session R) (kind : SubjectKind)
    (c : Coordinator Subject Tally (Faulty R)) : Session R :=
  { s with coordinators := fun k => if k = kind then c else s.coordinators k }

def register (s : Session R) (kind : SubjectKind) (d : Definition Subject Tally) : Session R :=
  s.setCoordinator kind ((s.coordinators kind).register d)

/-- Compile a scripted workflow and register it. -/
def registerScript (s : Session R) (kind : SubjectKind) (workflow : Json) :
    Except ConfigError (Session R) :=
  let (program, methods) := Script.readProgram s.methods workflow
  (program.compile (Script.registry (workflow.member "registry"))).map fun d =>
    { s with methods }.register kind (d.zoom Subject.notes Subject.setNotes)

/-- Register the expense approval workflow. -/
def registerExpense (s : Session R) : Except ConfigError (Session R) :=
  ((ExpenseClaim.program (H := Tally)).compile {}).map fun d =>
    s.register .expense (d.zoom Subject.claim Subject.setClaim)

/-! ### Operations -/

/-- Answer with the end of an operation. -/
def answering {α : Type} (f : Except CoordinatorError α → Answer)
    (o : Operation Subject Tally (Faulty R) α) : SessionErrand R :=
  Course.bind o.run fun r => .done (f r)

def start (s : Session R) (kind : SubjectKind) (definition : String) (context : Subject)
    (operation : Nat) : SessionErrand R :=
  answering .driven ((s.coordinators kind).start operation definition context)

def signal (s : Session R) (kind : SubjectKind) (id : Uuid) (name : String) (payload : Json)
    (operation : Nat) : SessionErrand R :=
  answering .driven ((s.coordinators kind).signal operation id name payload)

def resume (s : Session R) (kind : SubjectKind) (id : Uuid) (operation : Nat) : SessionErrand R :=
  answering .driven ((s.coordinators kind).resume operation id)

def cancel (s : Session R) (kind : SubjectKind) (id : Uuid) (operation : Nat) : SessionErrand R :=
  answering .cancelled ((s.coordinators kind).cancel operation id)

def get (s : Session R) (kind : SubjectKind) (id : Uuid) (_ : Nat) : SessionErrand R :=
  answering .found ((s.coordinators kind).load id)

def dispatcher (s : Session R) (kinds : List SubjectKind) : Dispatcher Subject Tally (Faulty R) :=
  kinds.foldl (fun d k => d.register (s.coordinators k)) { repository := s.repository }

def dispatch (s : Session R) (kinds : List SubjectKind) (id : Uuid) (name : String)
    (payload : Json) (operation : Nat) : SessionErrand R :=
  answering .found ((s.dispatcher kinds).dispatch operation id name payload)

def sweeper (s : Session R) : Sweeper (Faulty R) := ⟨s.repository, s.settings.notifier⟩

def sweep (s : Session R) (now : Timestamp) (_ : Nat) : SessionErrand R :=
  Course.bind (s.sweeper.sweep now) fun r => .done (.swept r)

/-- Sweep at intervals, which must take some time. -/
def sweepRepeatedly (s : Session R) (interval : Nanos) (rounds : Nat) (_ : Nat) :
    SessionErrand R :=
  if interval = 0 then .crash "`period` must be non-zero."
  else Course.bind (s.sweeper.run interval rounds) fun _ => .done .nothing

def idle (d : Nanos) (_ : Nat) : SessionErrand R := .wait d (.done .nothing)

/-! ### Carrying them out -/

/-- What became of an operation. -/
inductive Ending where
  | answered (a : Answer)
  | panicked (message : String)
  /-- It waits for something that will not come. -/
  | unfinished

def endingOf : Task ω τ β Answer → Ending
  | .ended a => .answered a
  | .crashed m => .panicked m
  | _ => .unfinished

/-- Carry out an operation in the foreground. -/
def carryOut (s : Session R) (errand : Nat → SessionErrand R) : Ending × Session R :=
  let operation := s.operations + 1
  let (task, crew) := s.crew.carryOut (errand operation)
  (endingOf task, { s with crew, operations := operation })

/-- Begin an operation in the background: its number. -/
def spawn (s : Session R) (errand : Nat → SessionErrand R) : Nat × Session R :=
  let operation := s.operations + 1
  (operation, { s with crew := s.crew.spawn operation (errand operation), operations := operation })

/-- Let some time pass. -/
def pass (s : Session R) (d : Nanos) : Session R := (s.carryOut (idle d)).2

/-- Wait for an operation in the background. -/
def await (s : Session R) (operation : Nat) : Ending × Session R :=
  let crew := s.crew.await operation
  let ending := match crew.find? operation with
    | some m => endingOf m.task
    | none => .unfinished
  (ending, { s with crew })

/-- Drop an operation as a crash would. -/
def abort (s : Session R) (operation : Nat) : Session R :=
  { s with crew := s.crew.abort operation (World.release operation) }

/-- Let a sweeper sweep at once and after every interval until some time has passed. Did it end
without a crash? One that has no interval crashes on its first turn. -/
def sweepFor (s : Session R) (intervalMillis millis : Nat) : Bool × Session R :=
  let rounds := millis / max intervalMillis 1 + 1
  let (operation, s) := s.spawn (s.sweepRepeatedly (Nanos.ofMillis intervalMillis) rounds)
  let s := s.pass (Nanos.ofMillis millis)
  let isCrashed := (s.crew.find? operation).any (·.task matches .crashed _)
  (intervalMillis != 0 && !isCrashed, s.abort operation)

/-! ### The store -/

/-- Make a request to the repository. -/
def request {α : Type} (s : Session R) (ask : Faulty R → Reply (Faulty R) α) :
    Except RepositoryFault α × Session R :=
  let (answer, w) := Operation.onStore ask s.world
  (answer, s.setWorld w)

/-- Put an instance into the store, past the mishaps. -/
def seed (s : Session R) (x : Instance) : Except RepositoryFault Unit × Session R :=
  let w := s.world
  let (answer, store) := s.inner.save x w.store.store
  (answer, s.setWorld { w with store := { w.store with store } })

/-- The stored instance, past the mishaps. -/
def stored? (s : Session R) (id : Uuid) : Option Instance :=
  match (s.inner.get id s.world.store.store).1 with
  | .ok x => x
  | .error _ => none

/-- The identifier of the next instance that is started. -/
def nextId (s : Session R) : Uuid := s.world.mint.1

/-- The events since they were last taken, oldest first. -/
def takeEvents (s : Session R) : List Event × Session R :=
  let w := s.world
  (w.announced.reverse, s.setWorld { w with announced := [] })

end Session

end DurableWorkflow
