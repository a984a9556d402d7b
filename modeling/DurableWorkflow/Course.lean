import DurableWorkflow.Walk

/-!
# Courses

A whole operation as a program over the world `ω`: single actions, waits, at times a walk with a
state `τ` of its own beside the world, and work that runs to its end whether the operation is
cancelled or not. An operation that panics ends in `crash`.
-/

namespace DurableWorkflow

inductive Course (ω τ β α : Type) where
  | done (a : α)
  | crash (message : String)
  /-- Change the world by `f`, and go on knowing the world before the change. -/
  | act (f : ω → ω) (rest : ω → Course ω τ β α)
  | wait (d : Nanos) (rest : Course ω τ β α)
  /-- Walk from the state `own`. The rest is given the state at the end and the report, or no
  report when the limit was over first. -/
  | walk (cancelled : ω → Bool) (limit : Option Nanos) (own : τ) (w : Walk (τ × ω) β)
    (rest : τ → Option β → Course ω τ β α)
  | perform (cancelled : ω → Bool) (own : τ) (work : Work (τ × ω) StepResult)
    (rest : τ → Work.End StepResult → Course ω τ β α)

namespace Course

variable {ω τ β α γ : Type}

def bind : Course ω τ β α → (α → Course ω τ β γ) → Course ω τ β γ
  | done a, k => k a
  | crash m, _ => crash m
  | act f rest, k => act f fun w => (rest w).bind k
  | wait d rest, k => wait d (rest.bind k)
  | walk c limit own w rest, k => walk c limit own w fun own r => (rest own r).bind k
  | perform c own work rest, k => perform c own work fun own e => (rest own e).bind k

instance : Monad (Course ω τ β) where
  pure := done
  bind := bind

/-- Change the world. -/
def modify (f : ω → ω) : Course ω τ β Unit := act f fun _ => done ()

/-- Look at the world. -/
def read (f : ω → α) : Course ω τ β α := act id fun w => done (f w)

/-- Change the world and take a value from it. -/
def update (f : ω → α × ω) : Course ω τ β α := act (fun w => (f w).2) fun w => done (f w).1

/-- Wait for a length of time. -/
def sleep (d : Nanos) : Course ω τ β Unit := wait d (done ())

/-- Do `f` to the world at the end, also when the course crashes. -/
def ensure (f : ω → ω) : Course ω τ β α → Course ω τ β α
  | done a => act f fun _ => done a
  | crash m => act f fun _ => crash m
  | act g rest => act g fun w => (rest w).ensure f
  | wait d rest => wait d (rest.ensure f)
  | walk c limit own w rest => walk c limit own w fun own r => (rest own r).ensure f
  | perform c own work rest => perform c own work fun own e => (rest own e).ensure f

@[simp] theorem pure_bind (a : α) (k : α → Course ω τ β γ) : (done a).bind k = k a := rfl

theorem bind_done (c : Course ω τ β α) : c.bind done = c := by
  induction c with
  | done | crash => rfl
  | act f rest ih => simp only [bind, ih]
  | wait d rest ih => simp only [bind, ih]
  | walk c limit own w rest ih => simp only [bind, ih]
  | perform c own work rest ih => simp only [bind, ih]

theorem bind_assoc {δ : Type} (c : Course ω τ β α) (k : α → Course ω τ β γ)
    (l : γ → Course ω τ β δ) : (c.bind k).bind l = c.bind fun a => (k a).bind l := by
  induction c with
  | done | crash => rfl
  | act f rest ih => simp only [bind, ih]
  | wait d rest ih => simp only [bind, ih]
  | walk c limit own w rest ih => simp only [bind, ih]
  | perform c own work rest ih => simp only [bind, ih]

end Course

end DurableWorkflow
