import DurableWorkflow.Instance.Codec
import DurableWorkflow.Json.Printer
import DurableWorkflow.Json.Reader
import DurableWorkflow.Number.Power
import DurableWorkflow.Repository.Basic

/-!
# Instances in a table

Each row holds an instance as a document, which is written and read as text, and beside it the
columns by which rows are found, put in order and compared. Some columns are written once, with the
row, and no update changes them. The revision has a column of 64 bits with a sign, and counts in
place of the one in the document.
-/

namespace DurableWorkflow

structure Row where
  /-- Written once. -/
  id : String
  workflow : String
  version : String
  contextType : String
  /-- To the microsecond, so that the order of texts is the order of times. -/
  createdAt : String
  /-- Written with every update. -/
  status : String
  awaited : Option String
  revision : Nat
  document : Json
  deriving Inhabited

namespace Row

/-- One more than the largest revision of a row. -/
def revisionLimit : Nat := twoTo 63

def revisionFault (n : Nat) : RepositoryFault :=
  .query ("revision out of range: " ++ toString n)

/-- A revision that fits its column. -/
def checkRevision (n : Nat) : Except RepositoryFault Nat :=
  if n < revisionLimit then .ok n else .error (revisionFault n)

def ofInstance (s : Instance) : Row :=
  { id := s.id.text, workflow := s.workflow, version := s.version.text
    contextType := s.contextType, createdAt := s.createdAt.microsText, status := s.status.text
    awaited := s.awaited, revision := s.revision, document := s.toJson }

/-- The columns that an update writes. -/
def write (r : Row) (s : Instance) : Row :=
  { r with
    status := s.status.text, awaited := s.awaited, revision := s.revision, document := s.toJson }

def toInstance (r : Row) : Except RepositoryFault Instance :=
  match Instance.ofJson? r.document.reread with
  | some s => .ok { s with revision := r.revision }
  | none => .error (.query "invalid instance state JSON")

def contextInfo (r : Row) : Except RepositoryFault ContextInfo :=
  match Version.parse r.version with
  | .ok version => .ok ⟨r.contextType, r.workflow, version⟩
  | .error fault =>
    .error (.query ("invalid workflow version '" ++ r.version ++ "': " ++ fault.message))

/-- Earlier text of creation first, then the smaller text of the identifier. -/
def older (a b : Row) : Bool :=
  if a.createdAt = b.createdAt then !(b.id < a.id) else a.createdAt < b.createdAt

end Row

/-- Rows with different identifiers. -/
structure Table where
  rows : List Row := []
  deriving Inhabited

namespace Table

def size (t : Table) : Nat := t.rows.length

def find? (t : Table) (id : Uuid) : Option Row := t.rows.find? (·.id == id.text)

def erase (t : Table) (id : Uuid) : Table := ⟨t.rows.filter (·.id != id.text)⟩

/-- The instances of the rows that are to be kept, oldest first. -/
def select (t : Table) (keep : Row → Bool) : Except RepositoryFault (List Instance) :=
  ((t.rows.filter keep).mergeSort Row.older).mapM Row.toInstance

def save (s : Instance) (t : Table) : Reply Table Unit :=
  match Row.checkRevision s.revision with
  | .error fault => (.error fault, t)
  | .ok _ =>
    match t.find? s.id with
    | some _ => (.error (.alreadyExists s.id), t)
    | none => (.ok (), ⟨Row.ofInstance s :: t.rows⟩)

def update (s : Instance) (expected : Nat) (t : Table) : Reply Table Unit :=
  match Row.checkRevision s.revision, Row.checkRevision expected with
  | .error fault, _ | _, .error fault => (.error fault, t)
  | .ok _, .ok _ =>
    match t.find? s.id with
    | none => (.error .notFound, t)
    | some row =>
      if row.revision = expected then
        (.ok (), ⟨t.rows.map fun r => if r.id = s.id.text then r.write s else r⟩)
      else (.error (.staleRevision expected row.revision), t)

def delete (id : Uuid) (t : Table) : Reply Table Bool := (.ok (t.find? id).isSome, t.erase id)

/-- The repository that keeps instances as documents. -/
def repository : Repository Table where
  save := save
  get := fun id t =>
    match t.find? id with
    | none => (.ok none, t)
    | some row => (row.toInstance.map some, t)
  update := update
  delete := delete
  listWaiting := fun signal t =>
    (t.select fun r =>
      r.status == Status.waiting.text && signal.all fun s => r.awaited == some s, t)
  listByStatus := fun status t => (t.select (·.status == status.text), t)
  contextInfo := fun id t =>
    match t.find? id with
    | none => (.ok none, t)
    | some row => (row.contextInfo.map some, t)

end Table

/-!
## Tables as text

A table is kept as one line of JSON for each row, in the order of the rows.
-/

namespace Row

def toJson (r : Row) : Json :=
  .obj [("id", .str r.id), ("workflow", .str r.workflow), ("version", .str r.version),
    ("context_type", .str r.contextType), ("created_at", .str r.createdAt),
    ("status", .str r.status), ("awaited", Json.ofOption .str r.awaited),
    ("revision", .nat r.revision), ("document", r.document)]

def ofJson? (j : Json) : Option Row := do
  let fs ← Json.Fields.ofJson?
    ["id", "workflow", "version", "context_type", "created_at", "status", "awaited", "revision",
      "document"] j
  some {
    id := ← fs.required "id" Json.toText?
    workflow := ← fs.required "workflow" Json.toText?
    version := ← fs.required "version" Json.toText?
    contextType := ← fs.required "context_type" Json.toText?
    createdAt := ← fs.required "created_at" Json.toText?
    status := ← fs.required "status" Json.toText?
    awaited := ← fs.optional "awaited" Json.toText?
    revision := ← fs.required "revision" (Json.toNat? 63)
    document := ← fs.required "document" some }

end Row

namespace Table

def toText (t : Table) : String := String.join (t.rows.map fun r => r.toJson.compact ++ "\n")

/-- Read rows; empty lines count for nothing. -/
def ofText? (s : String) : Option Table :=
  let lines := (s.splitOn "\n").filter (!·.isEmpty)
  (lines.mapM fun line => (Json.parse line).toOption.bind Row.ofJson?).map Table.mk

end Table

end DurableWorkflow
