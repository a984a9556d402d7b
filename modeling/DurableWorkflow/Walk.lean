import DurableWorkflow.Step

/-!
# Walks

The walk of a run over its graph, as a program. It changes the state in atomic actions, waits for
lengths of time, calls steps, and forks into branches that are walks of their own. A wait and a call
end early when the run is cancelled. A walk ends with a report of type `ρ`, and so does each branch;
after a fork the reports come in the order in which the branches ended.
-/

namespace DurableWorkflow

/-- How the call of a step ended. -/
inductive CallEnd where
  | finished (r : StepResult)
  | crashed (message : String)
  /-- The limit of the call was over before the work was. -/
  | timedOut
  | cancelled

def CallEnd.ofWork : Work.End StepResult → CallEnd
  | .done r => .finished r
  | .crash m => .crashed m

inductive Walk (σ ρ : Type) where
  | done (r : ρ)
  /-- Change the state by `f`, and go on knowing the state before the change. -/
  | act (f : σ → σ) (rest : σ → Walk σ ρ)
  /-- Wait; the rest learns whether the run was cancelled in the meantime. -/
  | pause (d : Nanos) (rest : Bool → Walk σ ρ)
  | call (limit : Option Nanos) (work : Work σ StepResult) (rest : CallEnd → Walk σ ρ)
  | fork (branches : List (Walk σ ρ)) (rest : List ρ → Walk σ ρ)

/-- A part of a walk that hands an `α` to what follows, unless it ends the walk. -/
def Piece (σ ρ α : Type) := (α → Walk σ ρ) → Walk σ ρ

namespace Piece

variable {σ ρ α β : Type}

instance : Monad (Piece σ ρ) where
  pure a := fun k => k a
  bind p f := fun k => p fun a => f a k

/-- End the walk here. -/
def halt (r : ρ) : Piece σ ρ α := fun _ => .done r

/-- Change the state and take a value from it. -/
def update (f : σ → α × σ) : Piece σ ρ α :=
  fun k => .act (fun s => (f s).2) fun s => k (f s).1

def modify (f : σ → σ) : Piece σ ρ Unit := fun k => .act f fun _ => k ()

def read (f : σ → α) : Piece σ ρ α := fun k => .act id fun s => k (f s)

def pause (d : Nanos) : Piece σ ρ Bool := fun k => Walk.pause d k

def call (limit : Option Nanos) (work : Work σ StepResult) : Piece σ ρ CallEnd :=
  fun k => Walk.call limit work k

def fork (branches : List (Walk σ ρ)) : Piece σ ρ (List ρ) := fun k => Walk.fork branches k

@[simp] theorem pure_apply (a : α) (k : α → Walk σ ρ) : (pure a : Piece σ ρ α) k = k a := rfl

@[simp] theorem bind_apply (p : Piece σ ρ α) (f : α → Piece σ ρ β) (k : β → Walk σ ρ) :
    (p >>= f) k = p fun a => f a k := rfl

end Piece

end DurableWorkflow
