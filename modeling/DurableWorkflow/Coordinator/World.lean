import DurableWorkflow.Event
import DurableWorkflow.Schedule.Crew

/-!
# The world of coordinators

What operations share: the stored instances `R`, the memory of the steps `H`, the leases on
instances that are being driven, what has been announced, the clocks, and the source of identifiers.
The time of day and the clock that measures waits are not the same clock.
-/

namespace DurableWorkflow

/-- The right to drive an instance, given to one operation of one coordinator. -/
structure Lease where
  coordinator : Nat
  instanceId : Uuid
  operation : Nat
  /-- Has the operation been asked to cancel its run? -/
  cancelled : Bool := false
  deriving DecidableEq, Repr, Inhabited

structure World (R H : Type) where
  store : R
  memory : H
  leases : List Lease := []
  /-- Events, the latest first. -/
  announced : List Event := []
  millis : Nat := 0
  wall : Timestamp
  /-- How many identifiers have been given away. -/
  minted : Nat := 0
  /-- How many notices have been given. -/
  notices : Nat := 0

namespace World

variable {R H : Type}

instance : Timed (World R H) := ⟨fun millis w => { w with millis }⟩

def publish (e : Event) (w : World R H) : World R H := { w with announced := e :: w.announced }

/-- A new identifier, greater than all before it. -/
def mint (w : World R H) : Uuid × World R H :=
  (Uuid.timeOrdered w.wall.toMillis.toNat w.minted, { w with minted := w.minted + 1 })

/-- The lease of a coordinator on an instance. -/
def lease? (w : World R H) (coordinator : Nat) (id : Uuid) : Option Lease :=
  w.leases.find? fun l => l.coordinator == coordinator && l.instanceId == id

/-- Give a lease on an instance, if nobody has it. -/
def acquire (coordinator operation : Nat) (id : Uuid) (w : World R H) : Bool × World R H :=
  match w.lease? coordinator id with
  | some _ => (false, w)
  | none => (true, { w with leases := { coordinator, instanceId := id, operation } :: w.leases })

/-- Take back the leases of an operation. -/
def release (operation : Nat) (w : World R H) : World R H :=
  { w with leases := w.leases.filter (·.operation != operation) }

/-- Has whoever holds the lease been asked to cancel? -/
def isCancelled (w : World R H) (coordinator : Nat) (id : Uuid) : Bool :=
  (w.lease? coordinator id).any (·.cancelled)

/-- Ask whoever holds the lease to cancel; is there anyone? -/
def requestCancel (coordinator : Nat) (id : Uuid) (w : World R H) : Bool × World R H :=
  match w.lease? coordinator id with
  | none => (false, w)
  | some _ =>
    (true, { w with
      leases := w.leases.map fun l =>
        if l.coordinator == coordinator && l.instanceId == id then { l with cancelled := true }
        else l })

end World

end DurableWorkflow
