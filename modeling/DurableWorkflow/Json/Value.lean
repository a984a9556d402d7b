import DurableWorkflow.Json.Decode
import DurableWorkflow.Json.Printer
import DurableWorkflow.Json.Reader

/-!
# Values of any kind

Where any value is taken, its objects are put in order, and an object whose first member has a
reserved name stands for the value written in the text of that member, which must be the only one.

A value that is written and read again is the same but for its floating point numbers, which are read
less exactly than they are written.
-/

namespace DurableWorkflow.Json

/-- The reserved name of a member that holds the text of a value. -/
def embeddedName : String := "$serde_json::private::RawValue"

/-- What is said of a value, in place of which a text is expected. -/
def notEmbedded (j : Json) : String :=
  let kind := match j with
    | .null => "null"
    | .bool b => "boolean `" ++ (if b then "true" else "false") ++ "`"
    | .int n => "integer `" ++ toString n ++ "`"
    | .float x => "floating point `" ++ x.text ++ "`"
    | .arr _ => "sequence"
    | .obj _ => "map"
    | .str _ | .unreadable => "string"
  "invalid type: " ++ kind ++ ", expected raw value"

mutual

/-- The value with its objects in order, embedded texts being read by `unfold`. -/
def settled (unfold : String → Except String Json) : Json → Except String Json
  | .unreadable => .error Flaw.numberTooLarge.text
  | .arr items => (settledItems unfold items).map .arr
  | .obj [] => .ok (.obj [])
  | .obj ((name, j) :: rest) =>
    if name = embeddedName then
      match j with
      | .str text => do
        let j ← unfold text
        if rest.isEmpty then return j
        throw Flaw.trailingComma.text
      | j => .error (notEmbedded j)
    else (settledMembers unfold ((name, j) :: rest) []).map .obj
  | j => .ok j

def settledItems (unfold : String → Except String Json) : List Json → Except String (List Json)
  | [] => .ok []
  | j :: js => do return (← settled unfold j) :: (← settledItems unfold js)

def settledMembers (unfold : String → Except String Json) :
    List (String × Json) → List (String × Json) → Except String (List (String × Json))
  | [], acc => .ok acc
  | (n, j) :: rest, acc => do
    settledMembers unfold rest (insertMember n (← settled unfold j) acc)

end

/-- Take any value, with texts inside texts at most `depth` deep. -/
def takeValue : Nat → Json → Except String Json
  | 0, _ => .error Flaw.tooDeep.text
  | depth + 1, j => j.settled fun text =>
    match parse text with
    | .error fault => .error (fault.message text)
    | .ok j => takeValue depth j

/-- Every text inside a text doubles the escapes, so no text has more of them inside each other. -/
def maxEmbedding : Nat := 64

/-- Take any value. -/
def toValue? (j : Json) : Option Json := (takeValue maxEmbedding j).toOption

/-- Read the whole text as any value, or say what is wrong. -/
def parseValue (s : String) : Except String Json :=
  match parse s with
  | .error fault => .error (fault.message s)
  | .ok j => takeValue maxEmbedding j

mutual

/-- What is read where the value has been written. -/
def reread : Json → Json
  | .float x => (parse (Json.float x).compact).toOption.getD .null
  | .arr items => .arr (rereadItems items)
  | .obj members => .obj (rereadMembers members)
  | j => j

def rereadItems : List Json → List Json
  | [] => []
  | j :: js => reread j :: rereadItems js

def rereadMembers : List (String × Json) → List (String × Json)
  | [] => []
  | (n, j) :: rest => (n, reread j) :: rereadMembers rest

end

end DurableWorkflow.Json
