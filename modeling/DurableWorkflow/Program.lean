import DurableWorkflow.Graph
import DurableWorkflow.Version

/-!
# Programs

A workflow as it is written down: calls that add items one after another, with blocks inside
blocks. Nothing is checked here.
-/

namespace DurableWorkflow

mutual

/-- A piece of a chain. -/
inductive Item (C H : Type) where
  | step (s : Step C H)
  /-- The step that is registered under a name. -/
  | registered (type : String)
  | delay (d : Nanos)
  | choice (holds : Predicate C) (arms : List (Arm C H))
  | parallel (branches : List (Branch C H))
  /-- Items that run one after the other as chains of their own. -/
  | sequence (items : List (Item C H))

/-- What to do when the condition of a choice holds, or when it does not. -/
inductive Arm (C H : Type) where
  | whenTrue (items : List (Item C H))
  | whenFalse (items : List (Item C H))

/-- One of the chains that run side by side. -/
inductive Branch (C H : Type) where
  | single (s : Step C H)
  | chain (items : List (Item C H))

end

/-- One thing said about a workflow. -/
inductive Call (C H : Type) where
  | start (s : Step C H)
  | append (item : Item C H)
  /-- Bound the whole run. -/
  | bound (limit : Nanos)

structure Program (C H : Type) where
  id : String
  name : String := ""
  version : String
  calls : List (Call C H)

/-- Steps by name. -/
structure Registry (C H : Type) where
  steps : List (String × Step C H) := []

namespace Registry

variable {C H : Type}

/-- Register a step in the place of an earlier one of that name. -/
def register (r : Registry C H) (type : String) (s : Step C H) : Registry C H :=
  ⟨(type, s) :: r.steps.filter (·.1 != type)⟩

def resolve (r : Registry C H) (type : String) : Option (Step C H) :=
  (r.steps.find? (·.1 == type)).map (·.2)

def contains (r : Registry C H) (type : String) : Bool := r.steps.any (·.1 == type)

def size (r : Registry C H) : Nat := r.steps.length

/-- The registry in a few words. -/
def text (r : Registry C H) : String :=
  "StepRegistry \x7b steps: " ++ toString r.size ++ " \x7d"

end Registry

end DurableWorkflow
