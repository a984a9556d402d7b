import DurableWorkflow.Coordinator.Basic
import DurableWorkflow.Expense.Workflow
import DurableWorkflow.Script.Workflow

/-!
# Subjects

The contexts of a session, of three kinds that never mix: notes, notes with a tag, and expense
claims. Each kind has a coordinator of its own.
-/

namespace DurableWorkflow

inductive Subject where
  | alpha (notes : Notes)
  | beta (tag : String) (notes : Notes)
  | expense (claim : ExpenseClaim)

/-- The kinds of subjects. -/
inductive SubjectKind where
  | alpha | beta | expense
  deriving DecidableEq, Repr

namespace Subject

/-- The notes of a subject that has any. -/
def notes : Subject → Notes
  | alpha n | beta _ n => n
  | expense _ => {}

def setNotes (n : Notes) : Subject → Subject
  | alpha _ => alpha n
  | beta tag _ => beta tag n
  | expense c => expense c

/-- The claim of a subject that is one. -/
def claim : Subject → ExpenseClaim
  | expense c => c
  | _ => default

def setClaim (c : ExpenseClaim) : Subject → Subject
  | expense _ => expense c
  | s => s

def toJson? : Subject → Option Json
  | alpha n => n.toJson?
  | beta tag n => if n.isWritable then some (.obj (("tag", .str tag) :: n.members)) else none
  | expense c => some c.toJson

def betaOfJson? (j : Json) : Option Subject := do
  let fs ← Json.Fields.ofJson? ["tag", "log", "vars"] j
  some (beta (← fs.required "tag" Json.toText?) (← Notes.ofFields? fs))

end Subject

namespace SubjectKind

def all : List SubjectKind := [alpha, beta, expense]

def typeName : SubjectKind → String
  | alpha => "Alpha"
  | beta => "Beta"
  | expense => "ExpenseClaim"

def ofJson? : SubjectKind → Json → Option Subject
  | alpha, j => (Notes.ofJson? j).map .alpha
  | beta, j => Subject.betaOfJson? j
  | expense, j => (ExpenseClaim.ofJson? j).map .expense

/-- The encoded context is what a store gives back: with its objects in order. -/
def contextKind (k : SubjectKind) : ContextKind Subject where
  typeName := k.typeName
  encode := fun s => s.toJson?.map Json.canonical
  decode := k.ofJson?

end SubjectKind

end DurableWorkflow
