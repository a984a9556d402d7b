import DurableWorkflow.Walk

/-!
# Strands

A walk in progress. It is always at a place where it waits: for its first turn, for some time to
pass, for the work of a step, or for its branches, which are strands of their own. Waits are rounded
up to milliseconds, and one that takes no time is no wait. When a strand is polled, a cancelled run
is noticed first, then work that is ready, then a limit that is over.
-/

namespace DurableWorkflow

/-!
## Moments

When a task is due. Tasks that are due in the same millisecond take turns by rank, and those of the
same rank in the order in which they began to wait, which their tickets tell. No wait takes longer
than thirty years.
-/

structure Moment where
  millis : Nat
  rank : Nat
  ticket : Nat
  deriving DecidableEq, Repr, Inhabited

namespace Moment

def before (a b : Moment) : Bool :=
  a.millis < b.millis || (a.millis == b.millis &&
    (a.rank < b.rank || (a.rank == b.rank && a.ticket < b.ticket)))

/-- The earlier of two moments, where nothing is later than everything. -/
def earliest : Option Moment → Option Moment → Option Moment
  | none, b => b
  | a, none => a
  | some a, some b => if b.before a then some b else some a

end Moment

/-- The ranks of a task: that of its own waits, and that of being told something by another task:
that a branch has ended, or that the run has been cancelled. -/
structure Ranks where
  own : Nat
  told : Nat
  deriving DecidableEq, Repr

namespace Ranks

/-- The foreground task is polled before the others when its own wait is over, and after all others
when one of them wakes it. -/
def foreground : Ranks := ⟨0, 2⟩

def background : Ranks := ⟨1, 1⟩

/-- The moment at which the task has been told something. -/
def toldAt (r : Ranks) (m : Option Moment) : Option Moment :=
  m.map fun m => { m with rank := r.told }

end Ranks

/-- The clock of a schedule, and the next ticket. -/
structure Clock where
  millis : Nat := 0
  ticket : Nat := 0
  deriving DecidableEq, Repr, Inhabited

namespace Clock

/-- The longest wait in milliseconds, thirty years of 365 days. -/
def longest : Nat := 30 * 365 * 24 * 60 * 60 * 1000

/-- A moment `d` milliseconds from now, and the clock after its ticket has been drawn. -/
def after (c : Clock) (rank d : Nat) : Moment × Clock :=
  (⟨c.millis + min d longest, rank, c.ticket⟩, { c with ticket := c.ticket + 1 })

/-- Has the moment come? -/
def reached (c : Clock) (m : Moment) : Bool := m.millis ≤ c.millis

end Clock

/-! ## Walks in progress -/

/-- Work that has ended, or waits: until a moment, or for ever unless it is cancelled. -/
inductive Stage (σ α : Type) where
  | ended (e : Work.End α)
  | waiting (due : Option Moment) (rest : Work σ α)

/-- Work as far as it goes without waiting. -/
def Work.proceed {σ α : Type} (cancelled : σ → Bool) (rank : Nat) :
    Work σ α → σ → Clock → Stage σ α × σ × Clock
  | done a, s, c => (.ended (.done a), s, c)
  | crash m, s, c => (.ended (.crash m), s, c)
  | act f rest, s, c => (rest s).proceed cancelled rank (f s) c
  | sleep d rest, s, c =>
    if d.millisUp = 0 then rest.proceed cancelled rank s c
    else
      let (due, c) := c.after rank d.millisUp
      (.waiting (some due) rest, s, c)
  | awaitCancel rest, s, c =>
    if cancelled s then rest.proceed cancelled rank s c else (.waiting none rest, s, c)

inductive Strand (σ ρ : Type) where
  /-- Has not had its first turn. -/
  | ready (due : Moment) (w : Walk σ ρ)
  | pausing (due : Moment) (rest : Bool → Walk σ ρ)
  | calling (deadline due : Option Moment) (work : Work σ StepResult) (rest : CallEnd → Walk σ ρ)
  /-- Waits for the branches that have not ended; the others have reported. -/
  | joining (branches : List (Strand σ ρ)) (reports : List ρ) (told : Option Moment)
    (rest : List ρ → Walk σ ρ)

/-- What polling leaves. -/
inductive Progress (σ ρ : Type) where
  | ended (r : ρ)
  | waiting (s : Strand σ ρ)

/-- A limit as a moment. -/
def Clock.deadline (c : Clock) (rank : Nat) : Option Nanos → Option Moment × Clock
  | none => (none, c)
  | some d =>
    let (m, c) := c.after rank d.millisUp
    (some m, c)

/-- First turns for branches, in order. -/
def Clock.readied {σ ρ : Type} (c : Clock) : List (Walk σ ρ) → List (Strand σ ρ) × Clock
  | [] => ([], c)
  | w :: ws =>
    let (due, c) := c.after Ranks.background.own 0
    let (ss, c) := c.readied ws
    (.ready due w :: ss, c)

section

variable {σ ρ : Type} (cancelled : σ → Bool) (rank : Nat)

/-- A walk as far as it goes without waiting. -/
def Walk.proceed : Walk σ ρ → σ → Clock → Progress σ ρ × σ × Clock
  | done r, s, c => (.ended r, s, c)
  | act f rest, s, c => (rest s).proceed (f s) c
  | pause d rest, s, c =>
    if cancelled s then (rest true).proceed s c
    else if d.millisUp = 0 then (rest false).proceed s c
    else
      let (due, c) := c.after rank d.millisUp
      (.waiting (.pausing due rest), s, c)
  | call limit work rest, s, c =>
    if cancelled s then (rest .cancelled).proceed s c
    else
      match work.proceed cancelled rank s c with
      | (.ended e, s, c) => (rest (.ofWork e)).proceed s c
      | (.waiting due work, s, c) =>
        let (deadline, c) := c.deadline rank limit
        if deadline.any c.reached then (rest .timedOut).proceed s c
        else (.waiting (.calling deadline due work rest), s, c)
  | fork branches rest, s, c =>
    if branches.isEmpty then (rest []).proceed s c
    else
      let (branches, c) := c.readied branches
      (.waiting (.joining branches [] none rest), s, c)

namespace Strand

/-- Poll a strand, but none of its branches. -/
def poll : Strand σ ρ → σ → Clock → Progress σ ρ × σ × Clock
  | ready _ w, s, c => w.proceed cancelled rank s c
  | pausing due rest, s, c =>
    if cancelled s then (rest true).proceed cancelled rank s c
    else if c.reached due then (rest false).proceed cancelled rank s c
    else (.waiting (.pausing due rest), s, c)
  | calling deadline due work rest, s, c =>
    if cancelled s then (rest .cancelled).proceed cancelled rank s c
    else
      match
        if due.any c.reached then work.proceed cancelled rank s c
        else (.waiting due work, s, c) with
      | (.ended e, s, c) => (rest (.ofWork e)).proceed cancelled rank s c
      | (.waiting due work, s, c) =>
        if deadline.any c.reached then (rest .timedOut).proceed cancelled rank s c
        else (.waiting (.calling deadline due work rest), s, c)
  | joining [] reports _ rest, s, c => (rest reports).proceed cancelled rank s c
  | joining branches reports _ rest, s, c =>
    (.waiting (.joining branches reports none rest), s, c)

mutual

/-- When the strand, or a branch of it, has to be polled. A cancelled run polls what waits at
`stopped`. -/
def due? (stopped : Option Moment) (ranks : Ranks) : Strand σ ρ → Option Moment
  | ready due _ => some due
  | pausing due _ => Moment.earliest (ranks.toldAt stopped) (some due)
  | calling deadline due _ _ =>
    Moment.earliest (ranks.toldAt stopped) (Moment.earliest due deadline)
  | joining branches _ told _ => Moment.earliest told (branchesDue? stopped branches)

def branchesDue? (stopped : Option Moment) : List (Strand σ ρ) → Option Moment
  | [] => none
  | b :: bs => Moment.earliest (b.due? stopped .background) (branchesDue? stopped bs)

end

/-- When the strand itself has to be polled, and not a branch of it. -/
def ownDue? (stopped : Option Moment) (ranks : Ranks) : Strand σ ρ → Option Moment
  | joining _ _ told _ => told
  | s => s.due? stopped ranks

/-- The moment of being told that branches have ended, `told` if that is known already. -/
def tell (rank : Nat) (report : Option ρ) (told : Option Moment) (c : Clock) :
    Option Moment × Clock :=
  match report, told with
  | some _, none =>
    let (m, c) := c.after rank 0
    (some m, c)
  | _, told => (told, c)

mutual

/-- Give a turn to the strand or branch that is due at `m`. -/
def turn (stopped : Option Moment) (m : Moment) (ranks : Ranks) :
    Strand σ ρ → σ → Clock → Progress σ ρ × σ × Clock
  | joining branches reports told rest, s, c =>
    if told == some m then
      poll cancelled ranks.own (joining branches reports told rest) s c
    else
      match turnBranch stopped m branches s c with
      | (branches, report, s, c) =>
        let (told, c) := tell ranks.told report told c
        (.waiting (.joining branches (reports ++ report.toList) told rest), s, c)
  | ready due w, s, c => poll cancelled ranks.own (ready due w) s c
  | pausing due rest, s, c => poll cancelled ranks.own (pausing due rest) s c
  | calling deadline due work rest, s, c =>
    poll cancelled ranks.own (calling deadline due work rest) s c

/-- Give a turn to the first branch that is due at `m`; its report, if it ends. -/
def turnBranch (stopped : Option Moment) (m : Moment) :
    List (Strand σ ρ) → σ → Clock → List (Strand σ ρ) × Option ρ × σ × Clock
  | [], s, c => ([], none, s, c)
  | b :: bs, s, c =>
    if b.due? stopped .background == some m then
      match b.turn stopped m .background s c with
      | (.ended r, s, c) => (bs, some r, s, c)
      | (.waiting b, s, c) => (b :: bs, none, s, c)
    else
      match turnBranch stopped m bs s c with
      | (bs, report, s, c) => (b :: bs, report, s, c)

end

end Strand

end

end DurableWorkflow
