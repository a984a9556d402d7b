import DurableWorkflow.Number.Power
import DurableWorkflow.Schedule.Task

/-!
# Crews

Tasks that take turns on one world. The task that is due first has its turn, and the clock moves
only when nothing is due yet. The foreground task is one the caller waits for.
-/

namespace DurableWorkflow

/-- A task of a crew. -/
structure Member (ω τ β α : Type) where
  id : Nat
  task : Task ω τ β α
  /-- When it was noticed that the task has been told to stop. -/
  stopped : Option Moment := none

structure Crew (ω τ β α : Type) where
  world : ω
  clock : Clock := {}
  members : List (Member ω τ β α) := []

/-- A world that is told the time. -/
class Timed (ω : Type) where
  /-- The world at so many milliseconds on the clock. -/
  setMillis : Nat → ω → ω

variable {ω τ β α : Type}

namespace Member

def foregroundId : Nat := 0

def ranks (m : Member ω τ β α) : Ranks :=
  if m.id = foregroundId then .foreground else .background

def due? (m : Member ω τ β α) : Option Moment := m.task.due? m.stopped m.ranks

/-- The moment at which the task itself is due, if that is now, and the clock; otherwise it is put
behind all that are due now. -/
def place (m : Member ω τ β α) (c : Clock) : Moment × Clock :=
  match (m.task.ownDue? m.stopped m.ranks).filter c.reached with
  | some due => (due, c)
  | none => c.after m.ranks.own 0

/-- Note that the task has been told to stop. -/
def notice (w : ω) (m : Member ω τ β α) (c : Clock) : Member ω τ β α × Clock :=
  if m.stopped.isNone && m.task.isStopped w then
    let (now, c) := c.after Ranks.background.own 0
    ({ m with stopped := some now }, c)
  else (m, c)

end Member

namespace Crew

def find? (crew : Crew ω τ β α) (id : Nat) : Option (Member ω τ β α) :=
  crew.members.find? (·.id == id)

/-- Is the task over, or not there at all? -/
def isOver (crew : Crew ω τ β α) (id : Nat) : Bool :=
  ((crew.find? id).map (·.task.isOver)).getD true

def remove (crew : Crew ω τ β α) (id : Nat) : Crew ω τ β α :=
  { crew with members := crew.members.filter (·.id != id) }

/-- Note which tasks have been told to stop. -/
def noticeAll (w : ω) : List (Member ω τ β α) → Clock → List (Member ω τ β α) × Clock
  | [], c => ([], c)
  | m :: ms, c =>
    let (m, c) := m.notice w c
    let (ms, c) := noticeAll w ms c
    (m :: ms, c)

/-- The first moment at which a task is due. -/
def due? (members : List (Member ω τ β α)) : Option Moment :=
  members.foldl (fun d m => Moment.earliest d m.due?) none

variable [Timed ω]

/-- Give a turn to the first member that is due at `m`. -/
def turn (m : Moment) : List (Member ω τ β α) → ω → Clock → List (Member ω τ β α) × ω × Clock
  | [], w, c => ([], w, c)
  | x :: xs, w, c =>
    if x.due? == some m then
      let (task, w, c) := x.task.turn x.stopped m x.ranks w c
      ({ x with task } :: xs, w, c)
    else
      let (xs, w, c) := turn m xs w c
      (x :: xs, w, c)

/-- One turn of what is due first, if that is before `until?`; nothing when nothing is. -/
def step (until? : Option Moment) (crew : Crew ω τ β α) : Option (Crew ω τ β α) :=
  let (members, clock) := noticeAll crew.world crew.members crew.clock
  match due? members with
  | none => none
  | some m =>
    if until?.all m.before then
      let clock := { clock with millis := max clock.millis m.millis }
      let (members, world, clock) :=
        turn m members (Timed.setMillis clock.millis crew.world) clock
      some { world, clock, members }
    else none

/-- Take turns until `stop` holds, or nothing is left to do. -/
def run (stop : Crew ω τ β α → Bool) : Nat → Crew ω τ β α → Crew ω τ β α
  | 0, crew => crew
  | fuel + 1, crew =>
    if stop crew then crew
    else
      match crew.step none with
      | none => crew
      | some crew => run stop fuel crew

/-- Take the turns that are due before a moment. -/
def takeTurns (crew : Crew ω τ β α) (before : Moment) : Nat → Crew ω τ β α
  | 0 => crew
  | fuel + 1 =>
    match crew.step (some before) with
    | none => crew
    | some crew => crew.takeTurns before fuel

/-- Take the turns that are due by now. -/
def settle (crew : Crew ω τ β α) (fuel : Nat) : Crew ω τ β α :=
  crew.takeTurns ⟨crew.clock.millis + 1, 0, 0⟩ fuel

/-- More turns than a crew ever takes. -/
def turnLimit : Nat := twoTo 62

/-- Add a task that will have its first turn when the others have had theirs. -/
def spawn (crew : Crew ω τ β α) (id : Nat) (course : Course ω τ β α) : Crew ω τ β α :=
  let (due, clock) := crew.clock.after Ranks.background.own 0
  { crew with clock, members := crew.members ++ [{ id, task := .ready due course }] }

/-- Note which tasks have been told to stop, before anything else is begun. -/
def noticed (crew : Crew ω τ β α) : Crew ω τ β α :=
  let (members, clock) := noticeAll crew.world crew.members crew.clock
  { crew with members, clock }

/-- Carry out a course in the foreground while the other tasks take their turns. How it ended is
left with the crew that is left. -/
def carryOut (crew : Crew ω τ β α) (course : Course ω τ β α) :
    Task ω τ β α × Crew ω τ β α :=
  let (task, world, clock) := course.proceed Ranks.foreground.own crew.world crew.clock
  let member : Member ω τ β α := { id := Member.foregroundId, task }
  let crew : Crew ω τ β α := { world, clock, members := member :: crew.members }
  let crew := crew.run (·.isOver Member.foregroundId) turnLimit
  let task := ((crew.find? Member.foregroundId).map (·.task)).getD (.crashed "")
  (task, (crew.remove Member.foregroundId).noticed)

/-- Take turns until a task is over, and the others have done what is due by then. One that is over
already is not waited for. -/
def await (crew : Crew ω τ β α) (id : Nat) : Crew ω τ β α :=
  if crew.isOver id then crew else (crew.run (·.isOver id) turnLimit).settle turnLimit

/-- Drop a task when its next turn would come, which is now; `f` is done to the world then. The
others do what is due by now. One that is over already is only forgotten. -/
def abort (crew : Crew ω τ β α) (id : Nat) (f : ω → ω) : Crew ω τ β α :=
  match crew.find? id with
  | none => crew
  | some m =>
    if m.task.isOver then crew.remove id
    else
      let (place, clock) := m.place crew.clock
      let crew := ({ crew with clock }.takeTurns place turnLimit).remove id
      { crew with world := f crew.world }.settle turnLimit

end Crew

end DurableWorkflow
