import DurableWorkflow.Number.Shortest

/-!
# JSON values

Numbers are integers or binary64 numbers. The members of an object keep the order and the
repetitions of their text; `canonical` sorts them by name and keeps the last of equal names. A text
may hold values that are written well and still cannot be taken; they do no harm where they are
ignored.
-/

namespace DurableWorkflow

inductive Json where
  | null
  | bool (b : Bool)
  | int (n : Int)
  | float (x : Binary64)
  | str (s : String)
  | arr (items : List Json)
  | obj (members : List (String × Json))
  /-- A number beyond range, half of a pair of surrogates, or too deep a nesting. -/
  | unreadable
  deriving Inhabited, Repr

namespace Json

def nat (n : Nat) : Json := .int n

/-- `null` for nothing. -/
def ofOption (f : α → Json) : Option α → Json
  | none => .null
  | some a => f a

def ofList (f : α → Json) (as : List α) : Json := .arr (as.map f)

/-- The member of that name, if the value is an object that has one; the last of several. -/
def get? (j : Json) (name : String) : Option Json :=
  match j with
  | .obj members => (members.reverse.find? (·.1 == name)).map (·.2)
  | _ => none

/-- The member of that name, or `null`. -/
def member (j : Json) (name : String) : Json := (j.get? name).getD .null

/-- Put `(name, value)` into members sorted by name, over a member of the same name. -/
def insertMember (name : String) (value : Json) : List (String × Json) → List (String × Json)
  | [] => [(name, value)]
  | (n, v) :: rest =>
    if name = n then (n, value) :: rest
    else if name < n then (name, value) :: (n, v) :: rest
    else (n, v) :: insertMember name value rest

mutual

/-- Every object sorted by name, the last of equal names kept. -/
def canonical : Json → Json
  | .arr items => .arr (canonicalItems items)
  | .obj members => .obj (canonicalMembers members [])
  | j => j

def canonicalItems : List Json → List Json
  | [] => []
  | j :: js => canonical j :: canonicalItems js

def canonicalMembers : List (String × Json) → List (String × Json) → List (String × Json)
  | [], acc => acc
  | (n, v) :: rest, acc => canonicalMembers rest (insertMember n (canonical v) acc)

end

mutual

/-- Can the whole value be taken? -/
def isReadable : Json → Bool
  | .unreadable => false
  | .arr items => itemsReadable items
  | .obj members => membersReadable members
  | _ => true

def itemsReadable : List Json → Bool
  | [] => true
  | j :: js => isReadable j && itemsReadable js

def membersReadable : List (String × Json) → Bool
  | [] => true
  | (_, v) :: rest => isReadable v && membersReadable rest

end

mutual

/-- Apply `f` to every text of the value, member names included. -/
def mapText (f : String → String) : Json → Json
  | .str s => .str (f s)
  | .arr items => .arr (mapTextItems f items)
  | .obj members => .obj (mapTextMembers f members)
  | j => j

def mapTextItems (f : String → String) : List Json → List Json
  | [] => []
  | j :: js => mapText f j :: mapTextItems f js

def mapTextMembers (f : String → String) : List (String × Json) → List (String × Json)
  | [] => []
  | (n, v) :: rest => (f n, mapText f v) :: mapTextMembers f rest

end

end Json

end DurableWorkflow
