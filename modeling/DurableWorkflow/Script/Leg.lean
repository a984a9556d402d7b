import DurableWorkflow.Coordinator.World
import DurableWorkflow.Run.Engine
import DurableWorkflow.Script.Workflow

/-!
# Runs of scripted workflows

A run of a scripted workflow on its own, without any store: one leg starts anywhere and may be
cancelled before it starts or after some time. The checkpoints are collected.
-/

namespace DurableWorkflow.Script

/-- The world of runs without a store. -/
abbrev Stage := World Unit Tally

/-- When a leg is cancelled. -/
inductive Interruption where
  | never
  | before
  | after (millis : Nat)

structure Leg where
  start : StartPoint
  interruption : Interruption := .never

/-- What a leg leaves: its checkpoints, and its result unless it was cancelled. -/
abbrev LegEnd := List (Checkpoint Notes) × Option (RunResult Notes)

def environment (options : RunOptions) (runId : Uuid) :
    Environment Notes Tally (List (Checkpoint Notes)) Stage where
  options
  runId
  cancelled := fun w => w.memory.stop
  wall := (·.wall)
  instant := (·.millis)
  publish := World.publish
  memory := (·.memory)
  setMemory := fun memory w => { w with memory }
  encode := Notes.toJson?
  save := fun c (saved, w) => .ok (c :: saved, w)

/-- Ask the run to cancel. -/
def setStop (stop : Bool) (w : Stage) : Stage := { w with memory := { w.memory with stop } }

/-- The courses of a leg: of the run, and of whoever cancels it. -/
abbrev LegCourse := Course Stage (Board Notes Tally (List (Checkpoint Notes))) Report LegEnd

def runLeg (d : Definition Notes Tally) (options : RunOptions) (runId : Uuid) (context : Notes)
    (leg : Leg) : LegCourse := do
  Course.modify (setStop (leg.interruption matches .before))
  let (saved, result) ← (environment options runId).run d leg.start context []
  return (saved.reverse, result)

def cancelAfter (millis : Nat) : LegCourse := do
  Course.sleep (Nanos.ofMillis millis)
  Course.modify (setStop true)
  return ([], none)

/-- Play a leg in a world: what it leaves, and the world after it. -/
def playLeg (d : Definition Notes Tally) (options : RunOptions) (runId : Uuid) (context : Notes)
    (leg : Leg) (w : Stage) : LegEnd × Stage :=
  let crew : Crew Stage (Board Notes Tally (List (Checkpoint Notes))) Report LegEnd :=
    { world := w, clock := { millis := w.millis } }
  let crew := match leg.interruption with
    | .after millis => crew.spawn 1 (cancelAfter millis)
    | _ => crew
  match crew.carryOut (runLeg d options runId context leg) with
  | (.ended r, crew) => (r, crew.world)
  | (_, crew) => (([], none), crew.world)

end DurableWorkflow.Script
