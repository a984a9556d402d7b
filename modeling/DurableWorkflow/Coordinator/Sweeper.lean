import DurableWorkflow.Coordinator.Operation

/-!
# Sweepers

A sweeper ends the waits whose deadline has come. An instance that has changed since the sweeper
listed it is left alone.
-/

namespace DurableWorkflow

structure Sweeper (R : Type) where
  repository : Repository R
  notifier : Notifier

namespace Sweeper

variable {C H R : Type}

/-- The instance after its wait has been ended, and what is said of it. -/
def expire (s : Instance) (now : Timestamp) : Except TransitionError (Instance × String × String) :=
  let signal := s.awaited.getD ""
  let message := "timed out waiting for signal '" ++ signal ++ "'"
  (s.transition .timedOut now).map fun s => ({ s with error := some message }, signal, message)

variable (sweeper : Sweeper R)

/-- Announce that a wait was ended. -/
def announce (s : Instance) (signal message : String) : Errand C H R Unit :=
  Course.modify fun w =>
    sweeper.notifier.tell (.errored s message) (w.publish ⟨s.id, .runTimedOut signal⟩)

/-- End the expired waits among the listed instances; the identifiers of those that were ended
follow `ended`. -/
def sweepListed (now : Timestamp) (ended : List Uuid) :
    List Instance → Errand C H R (Except RepositoryFault (List Uuid))
  | [] => pure (.ok ended)
  | s :: rest => do
    if s.isWaitExpired now then
      let wall ← Course.read (·.wall)
      match expire s wall with
      | .error _ => sweepListed now ended rest
      | .ok (s, signal, message) =>
        match ← Course.update (Operation.onStore (sweeper.repository.persist s)) with
        | .stored s =>
          sweeper.announce s signal message
          sweepListed now (ended ++ [s.id]) rest
        | .refused (.conflict _) => sweepListed now ended rest
        | .refused fault => pure (.error fault)
        | .exhausted => .crash Persisted.exhaustedMessage
    else sweepListed now ended rest

/-- End the waits whose deadline is at `now` or before; the identifiers of those that were ended. -/
def sweep (now : Timestamp) : Errand C H R (Except RepositoryFault (List Uuid)) := do
  match ← Course.update (Operation.onStore (sweeper.repository.listWaiting none)) with
  | .error fault => pure (.error fault)
  | .ok listed => sweeper.sweepListed now [] listed

/-- Sweep so many times, one interval after the other. -/
def run (interval : Nanos) : Nat → Errand C H R Unit
  | 0 => pure ()
  | rounds + 1 => do
    let now ← Course.read (·.wall)
    let _ ← sweeper.sweep now
    Course.sleep interval
    run interval rounds

end Sweeper

end DurableWorkflow
