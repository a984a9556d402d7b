import DurableWorkflow.Json.Basic
import DurableWorkflow.Number.Power

/-!
# Reading typed values from JSON

A record is read from an object, whose unknown members are ignored and whose known ones may occur
once, or from the list of its fields in order. There is one kind of failure, `none`.
-/

namespace DurableWorkflow.Json

def toText? : Json → Option String
  | .str s => some s
  | _ => none

def toBool? : Json → Option Bool
  | .bool b => some b
  | _ => none

/-- An integer within `lo` and `hi`. -/
def toIntIn? (lo hi : Int) : Json → Option Int
  | .int n => if lo ≤ n && n ≤ hi then some n else none
  | _ => none

/-- An integer of at most `bits` bits. -/
def toNat? (bits : Nat) : Json → Option Nat
  | .int n => if 0 ≤ n && n < twoTo bits then some n.toNat else none
  | _ => none

/-- Any number. -/
def toBinary64? : Json → Option Binary64
  | .int n => some (Binary64.ofInt n)
  | .float x => some x
  | _ => none

def toList? (f : Json → Option α) : Json → Option (List α)
  | .arr items => items.mapM f
  | _ => none

/-- `null`, or a value. -/
def toOption? (f : Json → Option α) : Json → Option (Option α)
  | .null => some none
  | j => (f j).map some

/-- The fields of a record as they were given. -/
inductive Fields where
  | named (members : List (String × Json))
  | listed (fields : List (String × Json))

namespace Fields

/-- The fields called `names`: members of an object, none of them twice, or the items of a list. -/
def ofJson? (names : List String) : Json → Option Fields
  | .obj members =>
    if names.all fun n => (members.filter (·.1 == n)).length ≤ 1 then some (.named members)
    else none
  | .arr items => if items.length ≤ names.length then some (.listed (names.zip items)) else none
  | _ => none

/-- The fields called `names`, those beyond the last of a list being ignored. -/
def ofLeading? (names : List String) : Json → Option Fields
  | .arr items => ofJson? names (.arr (items.take names.length))
  | j => ofJson? names j

/-- What was given for a field. -/
def get? : Fields → String → Option Json
  | named members, name => (members.find? (·.1 == name)).map (·.2)
  | listed fields, name => (fields.find? (·.1 == name)).map (·.2)

/-- A field that must be given. -/
def required (fs : Fields) (name : String) (f : Json → Option α) : Option α :=
  (fs.get? name).bind f

/-- A field that is `value` when it is not given. -/
def orElse (fs : Fields) (name : String) (value : α) (f : Json → Option α) : Option α :=
  match fs.get? name with
  | none => some value
  | some j => f j

/-- A field that may be `null` or missing. -/
def optional (fs : Fields) (name : String) (f : Json → Option α) : Option (Option α) :=
  fs.orElse name none (toOption? f)

/-- A field that may be `null`, and may be missing from an object but not from a list. -/
def nullable (fs : Fields) (name : String) (f : Json → Option α) : Option (Option α) :=
  match fs, fs.get? name with
  | _, some j => toOption? f j
  | named _, none => some none
  | listed _, none => none

end Fields

/-- The tag of a tagged record and what is left: the member `type`, or the first item of a list.
Nothing of a tagged record is ignored. -/
def splitTag? (j : Json) : Option (Json × Json) :=
  match if j.isReadable then j else .unreadable with
  | .obj members =>
    match members.filter (·.1 == "type") with
    | [(_, tag)] => some (tag, .obj (members.filter (·.1 != "type")))
    | _ => none
  | .arr (tag :: items) => some (tag, .arr items)
  | _ => none

end DurableWorkflow.Json
