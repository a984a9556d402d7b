import DurableWorkflow.Coordinator.Notifier
import DurableWorkflow.Repository.Basic
import DurableWorkflow.Run.Engine

/-!
# Operations of a coordinator

An operation is a course over the world that ends with a value or with an error. Every request to
the repository is one action of it.
-/

namespace DurableWorkflow

/-- Why an operation was refused or did not succeed. -/
inductive CoordinatorError where
  | repository (fault : RepositoryFault)
  | notFound (id : Uuid)
  | notWaiting (id : Uuid) (signal : String) (status : Status)
  | awaitingSignal (id : Uuid) (signal : String)
  | unknownDefinition (what : String)
  | invalidTransition (e : TransitionError)
  | busy (id : Uuid)
  | serialization
  | cancelled (id : Uuid)
  deriving DecidableEq, Repr, Inhabited

def CoordinatorError.message : CoordinatorError → String
  | repository fault => "repository error: " ++ fault.message
  | notFound id => "workflow instance " ++ id.text ++ " not found"
  | notWaiting id signal status =>
    "workflow instance " ++ id.text ++ " is not waiting for signal '" ++ signal ++ "' (status: "
      ++ status.text ++ ")"
  | awaitingSignal id signal =>
    "workflow instance " ++ id.text ++ " is waiting for signal '" ++ signal ++ "'"
  | unknownDefinition what => "no workflow definition registered for '" ++ what ++ "'"
  | invalidTransition e => e.message
  | busy id => "workflow instance " ++ id.text ++ " is already being driven"
  | serialization => "context serialization failed"
  | cancelled id => "workflow instance " ++ id.text ++ " was cancelled"

/-- A course on a world of stored instances. -/
abbrev Errand (C H R α : Type) := Course (World R H) (Board C H Instance) Report α

abbrev Operation (C H R α : Type) :=
  ExceptT CoordinatorError (Course (World R H) (Board C H Instance) Report) α

namespace Operation

variable {C H R α : Type}

def ofErrand (e : Errand C H R α) : Operation C H R α := ExceptT.lift e

def update (f : World R H → α × World R H) : Operation C H R α := ofErrand (Course.update f)

def modify (f : World R H → World R H) : Operation C H R Unit := ofErrand (Course.modify f)

def now : Operation C H R Timestamp := ofErrand (Course.read (·.wall))

/-- Panic. -/
def crash (message : String) : Operation C H R α := ofErrand (Course.crash message)

/-- A request to the repository, as a change of the world. -/
def onStore (ask : R → α × R) (w : World R H) : α × World R H :=
  ((ask w.store).1, { w with store := (ask w.store).2 })

/-- Make a request to the repository. -/
def request (ask : R → Reply R α) : Operation C H R α := do
  match ← update (onStore ask) with
  | .ok a => pure a
  | .error fault => throw (.repository fault)

/-- Take the value of a transition. -/
def moved (r : Except TransitionError α) : Operation C H R α :=
  match r with
  | .ok a => pure a
  | .error e => throw (.invalidTransition e)

/-- Take a value that may be missing. -/
def orThrow (e : CoordinatorError) : Option α → Operation C H R α
  | some a => pure a
  | none => throw e

/-- Announce something about an instance. -/
def announce (id : Uuid) (what : Happening) : Operation C H R Unit :=
  modify (World.publish ⟨id, what⟩)

/-- Release the leases of an operation when it is over, however it ends. -/
def releasing (operation : Nat) (c : Operation C H R α) : Operation C H R α :=
  ExceptT.mk (Course.ensure (World.release operation) c.run)

end Operation

end DurableWorkflow
