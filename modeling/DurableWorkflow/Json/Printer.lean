import DurableWorkflow.Json.Basic
import DurableWorkflow.Text.Digits

/-!
# Compact JSON text

No blanks; only the quotation mark, the backslash and control characters are escaped.
-/

namespace DurableWorkflow.Json

/-- A character inside quotation marks. -/
def escaped (c : Char) : List Char :=
  match c with
  | '"' => ['\\', '"']
  | '\\' => ['\\', '\\']
  | '\n' => ['\\', 'n']
  | '\r' => ['\\', 'r']
  | '\t' => ['\\', 't']
  | c =>
    if c.toNat == 0x08 then ['\\', 'b']
    else if c.toNat == 0x0c then ['\\', 'f']
    else if c.toNat < 0x20 then
      ['\\', 'u', '0', '0', Text.hexDigit (c.toNat / 16), Text.hexDigit c.toNat]
    else [c]

/-- A text in quotation marks. -/
def quoted (s : String) : String := "\"" ++ String.ofList (s.toList.flatMap escaped) ++ "\""

/-- `[a,b,…]` with the given brackets. -/
def bracketed (left right : String) (parts : List String) : String :=
  left ++ ",".intercalate parts ++ right

mutual

/-- The compact text of a value; a number that is not finite, and what cannot be read, is written
`null`. -/
def compact : Json → String
  | .null | .unreadable => "null"
  | .bool b => if b then "true" else "false"
  | .int n => toString n
  | .float x => if x.isFinite then x.text else "null"
  | .str s => quoted s
  | .arr items => bracketed "[" "]" (compactItems items)
  | .obj members => bracketed "\x7b" "\x7d" (compactMembers members)

def compactItems : List Json → List String
  | [] => []
  | j :: js => compact j :: compactItems js

def compactMembers : List (String × Json) → List String
  | [] => []
  | (n, v) :: rest => (quoted n ++ ":" ++ compact v) :: compactMembers rest

end

/-- The length of the compact text in bytes. -/
def size (j : Json) : Nat := j.compact.utf8ByteSize

/-!
## Indented JSON text

Every item and every member has a line of its own, two blanks further in than its container. An
empty container is written on one line.
-/

/-- The start of a line at some depth. -/
def margin (depth : Nat) : String := "\n" ++ String.ofList (List.replicate (2 * depth) ' ')

/-- Parts on lines of their own between brackets that stand at `depth`. -/
def stacked (depth : Nat) (left right : String) (parts : List String) : String :=
  if parts.isEmpty then left ++ right
  else
    left ++ margin (depth + 1) ++ ("," ++ margin (depth + 1)).intercalate parts ++ margin depth
      ++ right

mutual

/-- The text of a value that stands at `depth`. -/
def prettyAt (depth : Nat) : Json → String
  | .arr items => stacked depth "[" "]" (prettyItems (depth + 1) items)
  | .obj members => stacked depth "\x7b" "\x7d" (prettyMembers (depth + 1) members)
  | j => j.compact

def prettyItems (depth : Nat) : List Json → List String
  | [] => []
  | j :: js => prettyAt depth j :: prettyItems depth js

def prettyMembers (depth : Nat) : List (String × Json) → List String
  | [] => []
  | (n, v) :: rest => (quoted n ++ ": " ++ prettyAt depth v) :: prettyMembers depth rest

end

def pretty (j : Json) : String := prettyAt 0 j

end DurableWorkflow.Json
