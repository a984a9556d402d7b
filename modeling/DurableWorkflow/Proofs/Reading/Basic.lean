import DurableWorkflow.Program
import DurableWorkflow.Retry

/-!
# Reading a program directly

What a program says, without any graph: items are done in order, a choice does one of its arms and
then what follows, a sequence does its items, and of a parallel block every branch is done to its
own end, in order, before the first failure among them counts. Delays pass. What is kept is the
state and which steps were done on which states. Steps that wait have no reading.
-/

namespace DurableWorkflow

/-- How the reading of a program ends before its last item. -/
inductive Ending (C H : Type) where
  | failed (s : Step C H) (error : StepError) (attempts : Nat)
  | suspended (s : Step C H) (signal : String) (limit : Option Nanos)
  /-- A branch of a parallel block came to wait for a signal. -/
  | stranded (s : Step C H) (signal : String)
  /-- The condition of a choice gave no answer. -/
  | undecided (message : String)

/-- What a branch that waits comes to. -/
def Ending.inBranch {C H : Type} : Ending C H → Ending C H
  | .suspended s signal _ => .stranded s signal
  | e => e

/-- The state now, and the steps that have been done with the states they were done on. -/
structure Scene (C H : Type) where
  state : C × H
  done : List (Step C H × (C × H)) := []

/-- What a reading leaves: the scene, and how it ended if it ended early. -/
abbrev Told (C H : Type) := Scene C H × Option (Ending C H)

variable {C H : Type}

/-- What an attempt comes to. -/
def Work.End.outcome : Work.End StepResult → StepOutcome
  | .done r => r.outcome
  | .crash m => .failure (.panicked m) false

/-- Try a step once. -/
def Step.try (s : Step C H) (p : Scene C H) : Option (Scene C H × StepOutcome) :=
  (s.execute.runNow p.state).map fun (e, state) => (⟨state, p.done ++ [(s, p.state)]⟩, e.outcome)

/-- May a step that came to this outcome be tried again? -/
def Step.mayRepeat (s : Step C H) (policy : RetryPolicy) (attempt : Nat) : StepOutcome → Bool
  | .failure error shouldRetry => shouldRetry && s.canRetry && policy.allowsRetry attempt error
  | _ => false

/-- Try a step until it succeeds, waits or may not be tried again. This is attempt `attempt`, and
`spare` more may follow. -/
def Step.tries (s : Step C H) (policy : RetryPolicy) :
    Nat → Nat → Scene C H → Option (Scene C H × StepOutcome × Nat)
  | 0, attempt, p => (s.try p).map fun (p, outcome) => (p, outcome, attempt)
  | spare + 1, attempt, p => do
    let (p, outcome) ← s.try p
    if s.mayRepeat policy attempt outcome then s.tries policy spare (attempt + 1) p
    else some (p, outcome, attempt)

/-- Where the reading stands after a step. -/
def Step.ending (s : Step C H) (attempts : Nat) : StepOutcome → Option (Ending C H)
  | .success => none
  | .failure error _ => some (.failed s error attempts)
  | .suspended signal limit => some (.suspended s signal limit)

/-- Do a step; `retry` is for steps without a policy of their own. -/
def Step.read (s : Step C H) (retry : RetryPolicy) (p : Scene C H) : Option (Told C H) := do
  let policy := s.retryPolicy.getD retry
  let (p, outcome, attempts) ← s.tries policy (policy.maxAttempts - 1) 1 p
  return (p, s.ending attempts outcome)

section

variable (registry : Registry C H) (retry : RetryPolicy)

mutual

def Item.read : Item C H → Scene C H → Option (Told C H)
  | .step s, p => s.read retry p
  | .registered type, p =>
    match registry.resolve type with
    | some s => s.read retry p
    | none => some (p, none)
  | .delay _, p => some (p, none)
  | .choice holds arms, p =>
    match holds p.state.1 with
    | .ok side => readArm side arms p
    | .error m => some (p, some (.undecided m))
  | .parallel branches, p => readBranches branches p
  | .sequence items, p => readItems items p

/-- Items in order, up to the one that ends the reading. -/
def readItems : List (Item C H) → Scene C H → Option (Told C H)
  | [], p => some (p, none)
  | item :: items, p => do
    let (p, e) ← item.read p
    match e with
    | none => readItems items p
    | some e => return (p, some e)

/-- The arm of a choice for one side; there is nothing to do where it is missing. -/
def readArm (side : Bool) : List (Arm C H) → Scene C H → Option (Told C H)
  | [], p => some (p, none)
  | .whenTrue items :: arms, p => if side then readItems items p else readArm side arms p
  | .whenFalse items :: arms, p => if side then readArm side arms p else readItems items p

/-- All branches, each of them to its end; the first that ended early is what counts. -/
def readBranches : List (Branch C H) → Scene C H → Option (Told C H)
  | [], p => some (p, none)
  | .single s :: branches, p => do
    let (p, e) ← s.read retry p
    let (p, later) ← readBranches branches p
    return (p, (e.map Ending.inBranch).or later)
  | .chain items :: branches, p => do
    let (p, e) ← readItems items p
    let (p, later) ← readBranches branches p
    return (p, (e.map Ending.inBranch).or later)

end

end

/-- The items that a call adds. -/
def Call.items : Call C H → List (Item C H)
  | .start s => [.step s]
  | .append item => [item]
  | .bound _ => []

/-- A program as one list of items. -/
def Program.items (p : Program C H) : List (Item C H) := p.calls.flatMap Call.items

/-- Read a program from its beginning. -/
def Program.read (p : Program C H) (registry : Registry C H) (retry : RetryPolicy)
    (state : C × H) : Option (Told C H) :=
  readItems registry retry p.items { state }

end DurableWorkflow
