import DurableWorkflow.Course
import DurableWorkflow.Schedule.Strand

/-!
# Tasks

A course in progress: it has not had its first turn, waits, is on a walk, does work that cannot be
cancelled, or is over. The limit of a walk ends it only after the walk has had its turn.
-/

namespace DurableWorkflow

inductive Task (ω τ β α : Type) where
  | ready (due : Moment) (c : Course ω τ β α)
  | waiting (due : Moment) (rest : Course ω τ β α)
  | walking (cancelled : ω → Bool) (deadline : Option Moment) (own : τ) (strand : Strand (τ × ω) β)
    (rest : τ → Option β → Course ω τ β α)
  | performing (cancelled : ω → Bool) (due : Option Moment) (own : τ)
    (work : Work (τ × ω) StepResult) (rest : τ → Work.End StepResult → Course ω τ β α)
  | ended (a : α)
  | crashed (message : String)

variable {ω τ β α : Type}

/-- A course as far as it goes without waiting. -/
def Course.proceed (rank : Nat) : Course ω τ β α → ω → Clock → Task ω τ β α × ω × Clock
  | done a, w, c => (.ended a, w, c)
  | crash m, w, c => (.crashed m, w, c)
  | act f rest, w, c => (rest w).proceed rank (f w) c
  | wait d rest, w, c =>
    if d.millisUp = 0 then rest.proceed rank w c
    else
      let (due, c) := c.after rank d.millisUp
      (.waiting due rest, w, c)
  | walk cancelled limit own path rest, w, c =>
    match path.proceed (fun s => cancelled s.2) rank (own, w) c with
    | (.ended r, (own, w), c) => (rest own (some r)).proceed rank w c
    | (.waiting strand, (own, w), c) =>
      let (deadline, c) := c.deadline rank limit
      if deadline.any c.reached then (rest own none).proceed rank w c
      else (.walking cancelled deadline own strand rest, w, c)
  | perform cancelled own work rest, w, c =>
    match work.proceed (fun s => cancelled s.2) rank (own, w) c with
    | (.ended e, (own, w), c) => (rest own e).proceed rank w c
    | (.waiting due work, (own, w), c) => (.performing cancelled due own work rest, w, c)

namespace Task

/-- Is the task over? -/
def isOver : Task ω τ β α → Bool
  | ended _ | crashed _ => true
  | _ => false

/-- Has the task been told to stop? -/
def isStopped (w : ω) : Task ω τ β α → Bool
  | walking cancelled .. => cancelled w
  | performing cancelled .. => cancelled w
  | _ => false

/-- When the task has to be polled; what waits for being cancelled is polled at `stopped`. -/
def due? (stopped : Option Moment) (ranks : Ranks) : Task ω τ β α → Option Moment
  | ready due _ | waiting due _ => some due
  | walking _ deadline _ strand _ => Moment.earliest deadline (strand.due? stopped ranks)
  | performing _ (some due) .. => some due
  | performing _ none .. => ranks.toldAt stopped
  | ended _ | crashed _ => none

/-- When the task itself has to be polled, and not a branch of its walk. -/
def ownDue? (stopped : Option Moment) (ranks : Ranks) : Task ω τ β α → Option Moment
  | walking _ deadline _ strand _ => Moment.earliest deadline (strand.ownDue? stopped ranks)
  | t => t.due? stopped ranks

/-- Give a turn to what of the task is due at `m`. -/
def turn (stopped : Option Moment) (m : Moment) (ranks : Ranks) :
    Task ω τ β α → ω → Clock → Task ω τ β α × ω × Clock
  | ready _ course, w, c => course.proceed ranks.own w c
  | waiting _ rest, w, c => rest.proceed ranks.own w c
  | walking cancelled deadline own strand rest, w, c =>
    let isLate := deadline == some m
    let isOwn := isLate || strand.ownDue? stopped ranks == some m
    let stop := fun s : τ × ω => cancelled s.2
    match
      if isLate then strand.poll stop ranks.own (own, w) c
      else strand.turn stop stopped m ranks (own, w) c with
    | (.ended r, (own, w), c) => (rest own (some r)).proceed ranks.own w c
    | (.waiting strand, (own, w), c) =>
      if isOwn && deadline.any c.reached then (rest own none).proceed ranks.own w c
      else (walking cancelled deadline own strand rest, w, c)
  | performing cancelled _ own work rest, w, c =>
    match work.proceed (fun s => cancelled s.2) ranks.own (own, w) c with
    | (.ended e, (own, w), c) => (rest own e).proceed ranks.own w c
    | (.waiting due work, (own, w), c) => (performing cancelled due own work rest, w, c)
  | ended a, w, c => (ended a, w, c)
  | crashed m, w, c => (crashed m, w, c)

end Task

end DurableWorkflow
