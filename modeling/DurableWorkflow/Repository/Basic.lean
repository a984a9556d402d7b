import DurableWorkflow.Instance.Basic
import DurableWorkflow.Number.Power

/-!
# Repositories

Where instances are stored. A repository works on a store of type `R`; every request is answered at
once and leaves a store, and a fault leaves the store as it was. An update is accepted only while
the stored revision is the expected one. A revision is a number of 64 bits, and after the last one
an instance cannot be stored again.
-/

namespace DurableWorkflow

/-! ### Faults of a repository -/

/-- Why a repository did not do what it was asked; nothing has been changed then. -/
inductive RepositoryFault where
  | connection (message : String)
  | query (message : String)
  | notFound
  | conflict (message : String)
  deriving DecidableEq, Repr, Inhabited

def RepositoryFault.message : RepositoryFault → String
  | connection m => "database connection error: " ++ m
  | query m => "query error: " ++ m
  | notFound => "entity not found"
  | conflict m => "conflict: " ++ m

/-! ### Requests -/

/-- An answer, and the store after it. -/
abbrev Reply (R α : Type) := Except RepositoryFault α × R

structure Repository (R : Type) where
  /-- Add an instance; its identifier must be new. -/
  save : Instance → R → Reply R Unit
  get : Uuid → R → Reply R (Option Instance)
  /-- Replace an instance whose stored revision is the given one. -/
  update : Instance → Nat → R → Reply R Unit
  /-- Remove an instance; was it there? -/
  delete : Uuid → R → Reply R Bool
  /-- The waiting instances, or those that wait for a signal, oldest first. -/
  listWaiting : Option String → R → Reply R (List Instance)
  /-- The instances in a status, oldest first. -/
  listByStatus : Status → R → Reply R (List Instance)
  contextInfo : Uuid → R → Reply R (Option ContextInfo)

/-- What is said of an identifier that is not new. -/
def RepositoryFault.alreadyExists (id : Uuid) : RepositoryFault :=
  .conflict ("instance " ++ id.text ++ " already exists")

/-- What is said of an update that came too late. -/
def RepositoryFault.staleRevision (expected found : Nat) : RepositoryFault :=
  .conflict ("revision " ++ toString expected ++ " expected, found " ++ toString found)

/-- What became of a changed instance. -/
inductive Persisted where
  /-- It is stored like this. -/
  | stored (s : Instance)
  | refused (fault : RepositoryFault)
  /-- No revision follows the one it has; nothing was requested. -/
  | exhausted

/-- What is said where no revision follows. -/
def Persisted.exhaustedMessage : String := "attempt to add with overflow"

namespace Repository

variable {R : Type}

/-- The last revision. -/
def lastRevision : Nat := twoTo 64 - 1

/-- Store a changed instance under the next revision. -/
def persist (repository : Repository R) (s : Instance) (store : R) : Persisted × R :=
  if s.revision < lastRevision then
    let next := { s with revision := s.revision + 1 }
    match repository.update next s.revision store with
    | (.ok (), store) => (.stored next, store)
    | (.error fault, store) => (.refused fault, store)
  else (.exhausted, store)

end Repository

end DurableWorkflow
