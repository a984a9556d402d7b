import DurableWorkflow.Number.Power

/-!
# A broadcast bus

Every subscriber sees what is published after it subscribed, in order. The bus keeps as many items
as its capacity says; a subscriber that falls further behind is told how many it has missed, and
goes on with the oldest that is kept. What is published to nobody is not kept and not counted.
-/

namespace DurableWorkflow

structure Bus (α : Type) where
  capacity : Nat
  /-- How many items have been published so far. -/
  published : Nat := 0
  /-- The newest items, newest first, at most `capacity` of them. -/
  kept : List α := []
  /-- Each subscriber with the number of the item that it will receive next. -/
  subscribers : List (Nat × Nat) := []
  /-- The next subscriber gets this number. -/
  fresh : Nat := 0

namespace Bus

variable {α : Type}

/-- The least power of two that is at least `n`. -/
def powerAbove (n : Nat) : Nat := if n ≤ 1 then 1 else twoTo ((n - 1).log2 + 1)

/-- A bus that keeps at least `capacity` items. -/
def ofCapacity (capacity : Nat) : Bus α := { capacity := powerAbove capacity }

def defaultCapacity : Nat := 1024

def subscriberCount (b : Bus α) : Nat := b.subscribers.length

/-- A subscriber to everything that is still to come. -/
def subscribe (b : Bus α) : Nat × Bus α :=
  (b.fresh, { b with
    subscribers := (b.fresh, b.published) :: b.subscribers
    fresh := b.fresh + 1 })

def unsubscribe (b : Bus α) (id : Nat) : Bus α :=
  { b with subscribers := b.subscribers.filter (·.1 != id) }

def publish (b : Bus α) (a : α) : Bus α :=
  if b.subscribers.isEmpty then b
  else { b with published := b.published + 1, kept := (a :: b.kept).take b.capacity }

/-- What a subscriber finds. -/
inductive Received (α : Type) where
  | item (a : α)
  | nothing
  | missed (count : Nat)
  | notSubscribed

/-- The subscriber has seen everything before `next`. -/
def seek (b : Bus α) (id next : Nat) : Bus α :=
  { b with subscribers := b.subscribers.map fun s => if s.1 = id then (id, next) else s }

/-- Hand the next item to a subscriber, without waiting for one. -/
def receive (b : Bus α) (id : Nat) : Received α × Bus α :=
  match b.subscribers.find? (·.1 == id) with
  | none => (.notSubscribed, b)
  | some (_, next) =>
    if b.published - next > b.capacity then
      let oldest := b.published - b.capacity
      (.missed (oldest - next), b.seek id oldest)
    else if next < b.published then
      match b.kept[b.published - 1 - next]? with
      | some a => (.item a, b.seek id (next + 1))
      | none => (.nothing, b)
    else (.nothing, b)

end Bus

end DurableWorkflow
