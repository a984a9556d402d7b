import DurableWorkflow.CommandLine.Grammar

/-!
# Help on a command line

What a program or a command is for, how it is called, and its commands, operands and switches, each
list in two columns.
-/

namespace DurableWorkflow.CommandLine

/-- A text, filled up with blanks. -/
def filled (width : Nat) (s : String) : String :=
  s ++ String.ofList (List.replicate (width - s.length) ' ')

namespace Switch

/-- The name with a mark for what it takes. -/
def shape (s : Switch) : String :=
  "--" ++ s.name ++ match s.arity with
    | .nothing => ""
    | .repeated => "..."
    | .value placeholder => " <" ++ placeholder ++ ">"

/-- The letter, if there is one, and the shape. -/
def head (s : Switch) : String :=
  (match s.letter with
    | some c => String.ofList ['-', c, ',', ' ']
    | none => "    ") ++ s.shape

/-- What is said of the switch; `lookup` gives the variables of the environment. -/
def text (lookup : String → Option String) (s : Switch) : String :=
  s.about
    ++ ((s.environment.map fun v => " [env: " ++ v ++ "=" ++ (lookup v).getD "" ++ "]").getD "")
    ++ (s.default?.map fun d => " [default: " ++ d ++ "]").getD ""

def help : Switch := { name := "help", letter := some 'h', about := "Print help" }

def version : Switch := { name := "version", letter := some 'V', about := "Print version" }

end Switch

/-- Two columns. -/
def columns (rows : List (String × String)) : List String :=
  let width := rows.foldl (fun n r => max n r.1.length) 0
  rows.map fun (left, right) => "  " ++ filled width left ++ "  " ++ right

/-- A list with its title. -/
def titled (title : String) (lines : List String) : List String :=
  if lines.isEmpty then [] else "" :: (title ++ ":") :: lines

namespace Grammar

variable (g : Grammar)

/-- How the program or a command is called. -/
def usage (verb : Option Verb) : String :=
  "Usage: " ++ g.program ++ match verb with
    | none => " [OPTIONS] <COMMAND>"
    | some v =>
      " " ++ v.name ++ " [OPTIONS]"
        ++ String.join ((v.switches.filter (·.required)).map fun s => " " ++ s.shape)
        ++ String.join (v.operands.map fun o => " <" ++ o.name ++ ">")

/-- The lines of help on the program or on a command. -/
def helpLines (lookup : String → Option String) (verb : Option Verb) : List String :=
  let verbs := g.verbs.map (fun v => (v.name, v.about))
    ++ [("help", "Print this message or the help of the given subcommand(s)")]
  let operands := (verb.map (·.operands)).getD []
  let switches := g.switchesOf verb ++ [Switch.help, Switch.version]
  [(verb.map (·.about)).getD g.about, "", g.usage verb]
    ++ titled "Commands" (if verb.isNone then columns verbs else [])
    ++ titled "Arguments" (columns (operands.map fun o => ("<" ++ o.name ++ ">", o.about)))
    ++ titled "Options" (columns (switches.map fun s => (s.head, s.text lookup)))

/-- The line that names the version. -/
def versionLine (verb : Option Verb) : String :=
  g.program ++ ((verb.map fun v => "-" ++ v.name).getD "") ++ " " ++ g.version

end Grammar

end DurableWorkflow.CommandLine
