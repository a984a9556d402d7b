import DurableWorkflow.Coordinator.World

/-!
# Notifiers

Who tells the outside about instances, after what is told has been stored. A notifier answers with
the events that it announces, or with a fault, which is ignored. It is told the number of the
notice, so that it may behave differently every time.
-/

namespace DurableWorkflow

/-- What there is to tell. -/
inductive Notice where
  /-- The instance waits for a signal. -/
  | approvalRequested (s : Instance)
  | completed (s : Instance)
  /-- The instance has failed, or has waited too long. -/
  | errored (s : Instance) (message : String)
  deriving Inhabited

structure NotifierFault where
  reason : String
  deriving DecidableEq, Repr

def NotifierFault.message (f : NotifierFault) : String := "notification failed: " ++ f.reason

structure Notifier where
  notify : Nat → Notice → Except NotifierFault (List Event)

namespace Notifier

/-- Tells nobody. -/
def silent : Notifier := ⟨fun _ _ => .ok []⟩

/-- Fails every time. -/
def broken : Notifier := ⟨fun _ _ => .error ⟨"down"⟩⟩

def finished (s : Instance) (error : Option String) : List Event :=
  [⟨s.id, .instanceFinished s.workflow s.status error⟩]

/-- The events that announce a notice. -/
def events : Notice → Except NotifierFault (List Event)
  | .approvalRequested s =>
    match s.awaited with
    | some signal => .ok [⟨s.id, .approvalRequested s.workflow signal s.deadline⟩]
    | none => .error ⟨"instance " ++ s.id.text ++ " is not waiting"⟩
  | .completed s => .ok (finished s none)
  | .errored s message => .ok (finished s (some message))

/-- Announces every notice. -/
def announcing : Notifier := ⟨fun _ => events⟩

/-- Give a notice. -/
def tell {R H : Type} (n : Notifier) (notice : Notice) (w : World R H) : World R H :=
  let told := { w with notices := w.notices + 1 }
  match n.notify w.notices notice with
  | .ok es => es.foldl (fun w e => w.publish e) told
  | .error _ => told

end Notifier

/-! ### Giving a notice

Whatever a notifier does, all that it does to a world is that it announces something, and that one
more notice has been given.
-/

variable {R H : Type}

theorem World.foldl_publish (es : List Event) (w : World R H) :
    es.foldl (fun w e => w.publish e) w = { w with announced := es.reverse ++ w.announced } := by
  induction es generalizing w with
  | nil => rfl
  | cons e es ih =>
    rw [List.foldl_cons, ih, List.reverse_cons, List.append_assoc]
    rfl

namespace Notifier

/-- What has been announced, and how many notices have been given, after one more notice. -/
def hear (n : Notifier) (notice : Notice) (x : List Event × Nat) : List Event × Nat :=
  match n.notify x.2 notice with
  | .ok es => (es.reverse ++ x.1, x.2 + 1)
  | .error _ => (x.1, x.2 + 1)

theorem tell_eq (n : Notifier) (notice : Notice) (w : World R H) :
    n.tell notice w = { w with
      announced := (n.hear notice (w.announced, w.notices)).1
      notices := (n.hear notice (w.announced, w.notices)).2 } := by
  unfold tell hear
  dsimp only
  cases n.notify w.notices notice with
  | error fault => rfl
  | ok es => exact World.foldl_publish es _

theorem tell_store (n : Notifier) (notice : Notice) (w : World R H) :
    (n.tell notice w).store = w.store := by rw [tell_eq]

theorem tell_memory (n : Notifier) (notice : Notice) (w : World R H) :
    (n.tell notice w).memory = w.memory := by rw [tell_eq]

theorem tell_leases (n : Notifier) (notice : Notice) (w : World R H) :
    (n.tell notice w).leases = w.leases := by rw [tell_eq]

end Notifier

end DurableWorkflow
