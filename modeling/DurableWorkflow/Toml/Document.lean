import DurableWorkflow.Json.Basic

/-!
# Tables of a TOML document

The members of a table as they are defined one after the other, with the rules that say what may be
defined again. A table is opened by its header, made on the way to another header, or made by a
dotted key; values, inline tables among them, are closed.
-/

namespace DurableWorkflow.Toml

/-- How a table came about. -/
inductive Origin where
  | header | onTheWay | dotted
  deriving DecidableEq, Repr

inductive Entry where
  | value (j : Json)
  | table (origin : Origin) (members : List (String × Entry))
  /-- An array of tables; the last one is the one that is open. -/
  | tables (rows : List (List (String × Entry)))
  deriving Inhabited

abbrev Members := List (String × Entry)

namespace Members

def find? (ms : Members) (name : String) : Option Entry :=
  (List.find? (·.1 == name) ms).map (·.2)

/-- Put an entry in the place of the one of that name, or at the end. -/
def put (ms : Members) (name : String) (e : Entry) : Members :=
  if ms.any (·.1 == name) then ms.map fun m => if m.1 == name then (name, e) else m
  else ms ++ [(name, e)]

/-- Change the table that `path` leads to; tables that are missing on the way are made with
`origin`. A dotted path does not lead through a table that has a header. -/
def update (origin : Origin) (f : Origin → Members → Option Members) :
    List String → Origin → Members → Option Members
  | [], here, ms => f here ms
  | name :: path, _, ms =>
    match ms.find? name with
    | none => (update origin f path origin []).map fun inner => ms.put name (.table origin inner)
    | some (.value _) => none
    | some (.table there inner) =>
      if origin = .dotted && there = .header then none
      else (update origin f path there inner).map fun inner => ms.put name (.table there inner)
    | some (.tables rows) =>
      match rows.getLast? with
      | none => none
      | some row =>
        (update origin f path .header row).map fun row =>
          ms.put name (.tables (rows.dropLast ++ [row]))

/-- Define `path.name` in the open table. -/
def define (path : List String) (name : String) (value : Json) : Members → Option Members :=
  update .dotted (fun here ms =>
    if decide (here = .dotted) == path.isEmpty then none
    else if (ms.find? name).isSome then none
    else some (ms ++ [(name, .value value)])) path .header

/-- Open the table `path.name` by a header. -/
def openTable (path : List String) (name : String) : Members → Option Members :=
  update .onTheWay (fun _ ms =>
    match ms.find? name with
    | none => some (ms ++ [(name, .table .header [])])
    | some (.table .onTheWay inner) => some (ms.put name (.table .header inner))
    | some _ => none) path .header

/-- Open one more table of the array `path.name`. -/
def openRow (path : List String) (name : String) : Members → Option Members :=
  update .onTheWay (fun _ ms =>
    match ms.find? name with
    | none => some (ms ++ [(name, .tables [[]])])
    | some (.tables rows) => some (ms.put name (.tables (rows ++ [[]])))
    | some _ => none) path .header

/-- Define a key in the table that the last header opened. -/
def defineUnder (header path : List String) (name : String) (value : Json) (ms : Members) :
    Option Members :=
  update .onTheWay (fun _ ms => define path name value ms) header .header ms

end Members

mutual

def Entry.toJson : Entry → Json
  | .value j => j
  | .table _ members => .obj (membersJson members)
  | .tables rows => .arr (rowsJson rows)

def membersJson : List (String × Entry) → List (String × Json)
  | [] => []
  | (n, e) :: rest => (n, e.toJson) :: membersJson rest

def rowsJson : List (List (String × Entry)) → List Json
  | [] => []
  | r :: rest => .obj (membersJson r) :: rowsJson rest

end

end DurableWorkflow.Toml
