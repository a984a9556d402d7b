import DurableWorkflow.Time.Timestamp

/-!
# Work

What one call of a step does, as a program: it changes a state in atomic actions, may wait for some
time or until it is told to stop, and ends with a value or by crashing.
-/

namespace DurableWorkflow

/-- A program over the state `σ` that ends with an `α`. -/
inductive Work (σ α : Type) where
  | done (a : α)
  | crash (message : String)
  /-- Change the state by `f`, and go on knowing the state before the change. -/
  | act (f : σ → σ) (rest : σ → Work σ α)
  | sleep (d : Nanos) (rest : Work σ α)
  | awaitCancel (rest : Work σ α)

namespace Work

variable {σ τ α β : Type}

def bind : Work σ α → (α → Work σ β) → Work σ β
  | done a, k => k a
  | crash m, _ => crash m
  | act f rest, k => act f fun s => (rest s).bind k
  | sleep d rest, k => sleep d (rest.bind k)
  | awaitCancel rest, k => awaitCancel (rest.bind k)

instance : Monad (Work σ) where
  pure := done
  bind := bind

/-- Change the state. -/
def modify (f : σ → σ) : Work σ Unit := act f fun _ => done ()

/-- Look at the state. -/
def read (f : σ → α) : Work σ α := act id fun s => done (f s)

/-- Change the state and take a value from it. -/
def update (f : σ → α × σ) : Work σ α := act (fun s => (f s).2) fun s => done (f s).1

/-- Wait for a length of time. -/
def wait (d : Nanos) : Work σ Unit := sleep d (done ())

/-- Wait until the work is told to stop. -/
def untilCancelled : Work σ Unit := awaitCancel (done ())

/-- The same work on a part of a larger state. -/
def zoom (get : τ → σ) (set : σ → τ → τ) : Work σ α → Work τ α
  | done a => done a
  | crash m => crash m
  | act f rest => act (fun t => set (f (get t)) t) fun t => (rest (get t)).zoom get set
  | sleep d rest => sleep d (rest.zoom get set)
  | awaitCancel rest => awaitCancel (rest.zoom get set)

/-- How work ended that did not wait. -/
inductive End (α : Type) where
  | done (a : α)
  | crash (message : String)

/-- Run work that never waits; `none` when it does. -/
def runNow : Work σ α → σ → Option (End α × σ)
  | done a, s => some (.done a, s)
  | crash m, s => some (.crash m, s)
  | act f rest, s => (rest s).runNow (f s)
  | sleep _ _, _ | awaitCancel _, _ => none

@[simp] theorem pure_bind (a : α) (k : α → Work σ β) : (done a).bind k = k a := rfl

theorem bind_done (w : Work σ α) : w.bind done = w := by
  induction w with
  | done | crash => rfl
  | act f rest ih => simp only [bind, ih]
  | sleep d rest ih => simp only [bind, ih]
  | awaitCancel rest ih => simp only [bind, ih]

theorem bind_assoc {γ : Type} (w : Work σ α) (k : α → Work σ β) (l : β → Work σ γ) :
    (w.bind k).bind l = w.bind fun a => (k a).bind l := by
  induction w with
  | done | crash => rfl
  | act f rest ih => simp only [bind, ih]
  | sleep d rest ih => simp only [bind, ih]
  | awaitCancel rest ih => simp only [bind, ih]

end Work

end DurableWorkflow
