import DurableWorkflow.Repository.Basic

/-!
# A repository with faults

Requests of each kind are counted. At an appointed request it either answers with a fault and does
nothing, or first a rival raises the revision of the instance and then the request is carried out.
-/

namespace DurableWorkflow

inductive RequestKind where
  | save | get | update | delete | listWaiting | listByStatus | contextInfo
  deriving DecidableEq, Repr

/-- What goes wrong. -/
inductive Mishap where
  | fault (f : RepositoryFault)
  | rival (raise : Nat)
  deriving DecidableEq, Repr

/-- What goes wrong, and at which request of its kind, counted from one. -/
structure Appointment where
  kind : RequestKind
  nth : Nat
  mishap : Mishap
  deriving DecidableEq, Repr

/-- A store with the requests made to it so far. -/
structure Faulty (R : Type) where
  store : R
  requests : List RequestKind := []

namespace Faulty

variable {R α : Type}

/-- Raise the stored revision of an instance. -/
def interfere (inner : Repository R) (id : Uuid) (raise : Nat) (store : R) : R :=
  match inner.get id store with
  | (.ok (some s), store) =>
    (inner.update { s with revision := s.revision + raise } s.revision store).2
  | (_, store) => store

/-- Make a request, about `id` if it is about one instance. -/
def request (inner : Repository R) (appointments : List Appointment) (kind : RequestKind)
    (id : Option Uuid) (ask : R → Reply R α) (f : Faulty R) : Reply (Faulty R) α :=
  let requests := kind :: f.requests
  let nth := requests.count kind
  match appointments.find? fun a => a.kind = kind && a.nth = nth with
  | some ⟨_, _, .fault fault⟩ => (.error fault, { f with requests })
  | some ⟨_, _, .rival raise⟩ =>
    let store := match id with
      | some id => interfere inner id raise f.store
      | none => f.store
    let (answer, store) := ask store
    (answer, ⟨store, requests⟩)
  | none =>
    let (answer, store) := ask f.store
    (answer, ⟨store, requests⟩)

/-- The repository `inner` with appointed mishaps. -/
def repository (inner : Repository R) (appointments : List Appointment) :
    Repository (Faulty R) where
  save := fun s => request inner appointments .save (some s.id) (inner.save s)
  get := fun id => request inner appointments .get (some id) (inner.get id)
  update := fun s expected =>
    request inner appointments .update (some s.id) (inner.update s expected)
  delete := fun id => request inner appointments .delete (some id) (inner.delete id)
  listWaiting := fun signal =>
    request inner appointments .listWaiting none (inner.listWaiting signal)
  listByStatus := fun status =>
    request inner appointments .listByStatus none (inner.listByStatus status)
  contextInfo := fun id => request inner appointments .contextInfo (some id) (inner.contextInfo id)

end Faulty

end DurableWorkflow
