import DurableWorkflow.Event
import DurableWorkflow.Run.Result

/-!
# What a run works with

The board of a run is the state that its walk and all of its branches share: the context, the
ledger, the count of visits, and an extra part `X` for whoever saves checkpoints. Beside it stands
the world `ω`, of which a run needs to know only what its environment says.
-/

namespace DurableWorkflow

/-- The books of a run. -/
structure Ledger (C H : Type) where
  /-- The entries of the nodes that have been passed, and of the one the run ended at. -/
  trace : List StepTrace := []
  /-- The steps that can be undone, in the order in which they succeeded. -/
  completed : List (NodeId × Step C H) := []
  metrics : Metrics := {}

structure Board (C H X : Type) where
  context : C
  extra : X
  ledger : Ledger C H := {}
  visits : Nat := 0

/-- Where a run stands after a node. -/
structure Checkpoint (C : Type) where
  context : C
  /-- The nodes still to visit, the next one last. -/
  frontier : List NodeId
  /-- The entries of the node that was passed. -/
  trace : List StepTrace

/-- The surroundings of a run. -/
structure Environment (C H X ω : Type) where
  options : RunOptions
  runId : Uuid
  /-- Has the caller asked for the run to end? -/
  cancelled : ω → Bool
  /-- The time of day. -/
  wall : ω → Timestamp
  /-- Milliseconds on a clock that is never set. -/
  instant : ω → Nat
  publish : Event → ω → ω
  memory : ω → H
  setMemory : H → ω → ω
  /-- The context as it is stored; some contexts cannot be. -/
  encode : C → Option Json
  /-- Save a checkpoint, or say why the run crashes there. -/
  save : Checkpoint C → X × ω → Except String (X × ω)

namespace Environment

variable {C H X ω : Type} (env : Environment C H X ω)

/-- The work of a step, done on the board and in the world. -/
def onBoard (w : Work (C × H) StepResult) : Work (Board C H X × ω) StepResult :=
  w.zoom (fun (b, w) => (b.context, env.memory w))
    fun (c, h) (b, w) => ({ b with context := c }, env.setMemory h w)

def announce (what : Happening) (w : ω) : ω := env.publish ⟨env.runId, what⟩ w

end Environment

/-- Where a run begins. -/
inductive StartPoint where
  | root
  | frontier (nodes : List NodeId)
  /-- Deliver a signal to a node that waits, and go on with what was pending. -/
  | signal (node : NodeId) (pending : List NodeId) (signal : Signal)

end DurableWorkflow
