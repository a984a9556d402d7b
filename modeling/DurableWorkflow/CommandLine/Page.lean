import DurableWorkflow.Instance.Codec
import DurableWorkflow.Json.Printer

/-!
# What a command prints

A page is a JSON document, or lines and tables. Tables have a ruler above and below their header and
one at the end; a column is as wide as its widest cell.
-/

namespace DurableWorkflow.CommandLine

structure Sheet where
  header : List String
  rows : List (List String)

inductive Block where
  | line (text : String)
  | table (t : Sheet)

inductive Page where
  /-- A document, indented or on one line. -/
  | document (j : Json) (indented : Bool)
  | blocks (bs : List Block)

namespace Sheet

/-- The width of a cell, which may have several lines. -/
def cellWidth (cell : String) : Nat := ((cell.splitOn "\n").map String.length).foldl max 0

/-- The widths of the columns. -/
def widths (t : Sheet) : List Nat :=
  t.rows.foldl (fun ws r => List.zipWith max ws (r.map cellWidth)) (t.header.map cellWidth)

/-- A ruler with its ends, its crossings and its stroke. -/
def ruler (widths : List Nat) (left cross right stroke : Char) : String :=
  let part := fun (w : Nat) => String.ofList (List.replicate (w + 2) stroke)
  String.ofList [left] ++ (String.ofList [cross]).intercalate (widths.map part)
    ++ String.ofList [right]

def row (widths : List Nat) (cells : List String) : String :=
  let cell := fun (w : Nat) (s : String) =>
    " " ++ s ++ String.ofList (List.replicate (w - s.length) ' ') ++ " "
  "│" ++ "┆".intercalate (List.zipWith cell widths cells) ++ "│"

/-- A row is as high as its highest cell. -/
def rowLines (widths : List Nat) (cells : List String) : List String :=
  let parts := cells.map (·.splitOn "\n")
  let height := (parts.map List.length).foldl max 1
  (List.range height).map fun i => row widths (parts.map fun p => p.getD i "")

def lines (t : Sheet) : List String :=
  let ws := t.widths
  [ruler ws '┌' '┬' '┐' '─', row ws t.header, ruler ws '╞' '╪' '╡' '═']
    ++ t.rows.flatMap (rowLines ws) ++ [ruler ws '└' '┴' '┘' '─']

end Sheet

def Block.lines : Block → List String
  | line text => [text]
  | table t => t.lines

/-- The lines that are printed. -/
def Page.lines : Page → List String
  | document j indented => [if indented then j.pretty else j.compact]
  | blocks bs => bs.flatMap Block.lines

end DurableWorkflow.CommandLine

/-!
## Pages about instances

Every page is JSON or text. In a table `-` stands for nothing.
-/

namespace DurableWorkflow.CommandLine.Page

/-- A line of a page. -/
def line (s : String) : Block := .line ("  " ++ s)

/-- A page with an empty line before and after it. -/
def spaced (bs : List Block) : Page := .blocks (.line "" :: bs ++ [.line ""])

/-- The lines about an instance. -/
def summary (s : Instance) : List Block :=
  [line ("Instance: " ++ s.id.text), line ("Workflow: " ++ s.workflow ++ "@" ++ s.version.text),
    line ("Status: " ++ s.status.text)]
    ++ (s.awaited.map fun signal => line ("Waiting for: " ++ signal)).toList
    ++ (s.deadline.map fun t => line ("Deadline: " ++ t.secondsText)).toList
    ++ (s.error.map fun e => line ("Error: " ++ e)).toList

/-- An instance as an item of a list. -/
def listItem (s : Instance) : Json :=
  .obj [("created_at", .str s.createdAt.offsetText), ("instance_id", s.id.toJson),
    ("status", s.status.toJson), ("updated_at", .str s.updatedAt.offsetText),
    ("version", .str s.version.text),
    ("wait_deadline", Json.ofOption (fun t : Timestamp => .str t.offsetText) s.deadline),
    ("waiting_signal", Json.ofOption .str s.awaited), ("workflow_id", .str s.workflow)]

/-- An instance as a row of a table. -/
def listRow (s : Instance) : List String :=
  [s.id.text, s.workflow ++ "@" ++ s.version.text, s.status.text, s.awaited.getD "-",
    (s.deadline.map (·.minutesText)).getD "-", s.updatedAt.minutesText]

def outcomeText : TraceOutcome → String
  | .succeeded => "succeeded"
  | .failed message _ => "failed: " ++ message
  | .suspended signal => "waiting for '" ++ signal ++ "'"

/-- A trace as a row of a table. -/
def traceRow (t : StepTrace) : List String :=
  [t.step, NodeId.text t.node, outcomeText t.outcome, toString t.attempts,
    toString t.durationMillis ++ "ms"]

def instancePage (json : Bool) (heading : String) (s : Instance) (more : List Block) : Page :=
  if json then .document s.toJson true else spaced (line heading :: summary s ++ more)

def listPage (json : Bool) (ss : List Instance) : Page :=
  if json then .document (Json.ofList listItem ss) true
  else if ss.isEmpty then
    spaced [line "No workflow instances.",
      line "Start one with: wpt start --employee <name> --amount <amount>"]
  else
    spaced [.table {
      header := ["Instance", "Workflow", "Status", "Waiting for", "Deadline", "Updated"]
      rows := ss.map listRow }]

def inspectPage (json : Bool) (s : Instance) : Page :=
  if json then .document s.toJson true
  else
    spaced (summary s ++ [line "Context:"]
      ++ (s.context.pretty.splitOn "\n").map (fun t => line ("  " ++ t)) ++ [.line ""]
      ++ (if s.history.isEmpty then [line "No steps recorded yet."]
        else [.table {
          header := ["Step", "Node", "Outcome", "Attempts", "Duration"]
          rows := s.history.map traceRow }]))

def sweepPage (json : Bool) (ids : List Uuid) : Page :=
  if json then .document (.obj [("timed_out", Json.ofList Uuid.toJson ids)]) false
  else if ids.isEmpty then spaced [line "No expired waits."]
  else
    spaced (line ("* Timed out " ++ toString ids.length ++ " instance(s)")
      :: ids.map fun id => line ("  " ++ id.text))

end DurableWorkflow.CommandLine.Page
