import DurableWorkflow.Repository.Basic

/-!
# Instances in memory
-/

namespace DurableWorkflow

/-- Instances with different identifiers. -/
structure Memory where
  instances : List Instance := []
  distinct : (instances.map (·.id)).Nodup := by simp

namespace Memory

instance : Inhabited Memory := ⟨{}⟩

def size (m : Memory) : Nat := m.instances.length

def find? (m : Memory) (id : Uuid) : Option Instance := m.instances.find? (·.id == id)

theorem find?_id {m : Memory} {id : Uuid} {s : Instance} (h : m.find? id = some s) : s.id = id := by
  simpa using List.find?_some h

theorem not_mem_of_find? {m : Memory} {id : Uuid} (h : m.find? id = none) :
    id ∉ m.instances.map (·.id) := by
  intro hmem
  obtain ⟨s, hs, hid⟩ := List.mem_map.1 hmem
  have := List.find?_eq_none.1 h s hs
  simp [hid] at this

theorem replaced_id (s t : Instance) : (if t.id = s.id then s else t).id = t.id := by
  split
  · next h => exact h.symm
  · rfl

/-- Add an instance with an identifier that is new. -/
def insert (m : Memory) (s : Instance) (h : m.find? s.id = none) : Memory where
  instances := s :: m.instances
  distinct := List.nodup_cons.2 ⟨not_mem_of_find? h, m.distinct⟩

/-- Put an instance in the place of the one with its identifier. -/
def replace (m : Memory) (s : Instance) : Memory where
  instances := m.instances.map fun t => if t.id = s.id then s else t
  distinct := by
    rw [List.map_map]
    have hid : (fun t : Instance => t.id) ∘ (fun t => if t.id = s.id then s else t) = (·.id) :=
      funext (replaced_id s)
    rw [hid]
    exact m.distinct

def erase (m : Memory) (id : Uuid) : Memory where
  instances := m.instances.filter (·.id != id)
  distinct := m.distinct.sublist (List.filter_sublist.map _)

/-- The instances that are to be kept, oldest first. -/
def select (m : Memory) (keep : Instance → Bool) : List Instance :=
  (m.instances.filter keep).mergeSort Instance.older

def save (s : Instance) (m : Memory) : Reply Memory Unit :=
  match h : m.find? s.id with
  | some _ => (.error (.alreadyExists s.id), m)
  | none => (.ok (), m.insert s h)

def update (s : Instance) (expected : Nat) (m : Memory) : Reply Memory Unit :=
  match m.find? s.id with
  | none => (.error .notFound, m)
  | some stored =>
    if stored.revision = expected then (.ok (), m.replace s)
    else (.error (.staleRevision expected stored.revision), m)

def delete (id : Uuid) (m : Memory) : Reply Memory Bool := (.ok (m.find? id).isSome, m.erase id)

/-- The repository that keeps instances as they are given. -/
def repository : Repository Memory where
  save := save
  get := fun id m => (.ok (m.find? id), m)
  update := update
  delete := delete
  listWaiting := fun signal m =>
    (.ok (m.select fun s =>
      match signal with
      | some signal => s.isWaitingFor signal
      | none => s.status == .waiting), m)
  listByStatus := fun status m => (.ok (m.select (·.status == status)), m)
  contextInfo := fun id m => (.ok ((m.find? id).map (·.contextInfo)), m)

end Memory

end DurableWorkflow
