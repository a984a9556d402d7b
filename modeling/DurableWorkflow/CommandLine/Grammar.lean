/-!
# The grammar of a command line

A program has commands; switches may stand before and after the name of the command, in any order
with its operands. A switch may be given once before the name and once after it. Words are read one
after the other, and the first that does not fit ends the reading; help and version end it too.
-/

namespace DurableWorkflow.CommandLine

/-- What a switch takes. -/
inductive Arity where
  | nothing
  /-- Nothing, and it may be repeated. -/
  | repeated
  /-- A value, shown as `placeholder`. -/
  | value (placeholder : String)
  deriving DecidableEq, Repr

structure Switch where
  name : String
  letter : Option Char := none
  arity : Arity := .nothing
  required : Bool := false
  about : String
  /-- Which values are taken. -/
  accepts : String → Bool := fun _ => true
  /-- The variable of the environment that is used in its place. -/
  environment : Option String := none
  /-- The value if it is not given, where help tells it. -/
  default? : Option String := none

/-- A word that every command line of a command must have. -/
structure Operand where
  name : String
  about : String := ""
  accepts : String → Bool := fun _ => true

structure Verb where
  name : String
  aliases : List String := []
  about : String
  switches : List Switch := []
  operands : List Operand := []
  /-- Switches that exclude each other. -/
  conflicts : List (String × String) := []

structure Grammar where
  program : String
  about : String
  version : String
  /-- Switches of every command. -/
  switches : List Switch
  verbs : List Verb

/-- Why a command line does not fit. -/
inductive Misuse where
  | noCommand
  | unexpected (word : String)
  | missingValue (switch : String)
  | surplusValue (switch : String)
  | invalidValue (value name : String)
  | repeatedSwitch (switch : String)
  | missing (what : String)
  | conflict (one other : String)
  deriving DecidableEq, Repr

def Misuse.message : Misuse → String
  | noCommand => "a command is required"
  | unexpected word => "unexpected argument '" ++ word ++ "' found"
  | missingValue switch => "a value is required for '--" ++ switch ++ "' but none was supplied"
  | surplusValue switch => "unexpected value for '--" ++ switch ++ "' found"
  | invalidValue value name => "invalid value '" ++ value ++ "' for '" ++ name ++ "'"
  | repeatedSwitch switch => "the argument '--" ++ switch ++ "' cannot be used multiple times"
  | missing what => "the required argument '" ++ what ++ "' was not provided"
  | conflict one other => "the argument '--" ++ one ++ "' cannot be used with '--" ++ other ++ "'"

/-- A command and what it was given. -/
structure Given where
  verb : Verb
  /-- The names of switches with their values, in the order of the words. -/
  switches : List (String × String)
  operands : List String

namespace Given

/-- The last value of a switch. -/
def value? (g : Given) (name : String) : Option String :=
  (g.switches.reverse.find? (·.1 == name)).map (·.2)

def count (g : Given) (name : String) : Nat := (g.switches.filter (·.1 == name)).length

def has (g : Given) (name : String) : Bool := g.count name != 0

def operand (g : Given) (i : Nat) : String := g.operands.getD i ""

end Given

/-- What a command line asks for. -/
inductive Wish where
  | command (given : Given)
  /-- Help on the program or on a command. -/
  | help (verb : Option Verb)
  | version (verb : Option Verb)

/-- Why no further words are read. -/
inductive Stop where
  | misuse (m : Misuse)
  | wish (w : Wish)

/-- How far the words have been read. -/
structure Progress where
  verb : Option Verb := none
  /-- A switch that needs a value. -/
  pending : Option Switch := none
  /-- Has the word after which nothing is a switch been read? -/
  plain : Bool := false
  /-- Has the name of the help command been read? -/
  helping : Bool := false
  /-- The switches before the name of the command. -/
  before : List (String × String) := []
  /-- The switches since the name of the command, or since the start without one. -/
  since : List (String × String) := []
  operands : List String := []

namespace Grammar

variable (g : Grammar)

def verb? (name : String) : Option Verb :=
  g.verbs.find? fun v => v.name == name || v.aliases.contains name

/-- The switches that may stand at this place. -/
def switchesOf (verb : Option Verb) : List Switch := (verb.map (·.switches)).getD [] ++ g.switches

end Grammar

namespace Progress

def refuse (m : Misuse) : Except Stop Progress := .error (.misuse m)

/-- Note a switch with its value. -/
def give (p : Progress) (s : Switch) (value : String) : Except Stop Progress :=
  if s.arity != .repeated && p.since.any (·.1 == s.name) then refuse (.repeatedSwitch s.name)
  else if s.accepts value then
    .ok { p with since := p.since ++ [(s.name, value)], pending := none }
  else refuse (.invalidValue value ("--" ++ s.name))

/-- A switch by its name, with the value that is attached to it. -/
def long (g : Grammar) (p : Progress) (name : String) (attached : Option String) :
    Except Stop Progress :=
  match (g.switchesOf p.verb).find? (·.name == name), attached with
  | some s, none =>
    match s.arity with
    | .value _ => .ok { p with pending := some s }
    | _ => p.give s ""
  | some s, some value =>
    match s.arity with
    | .value _ => p.give s value
    | _ => refuse (.surplusValue name)
  | none, none =>
    if name = "help" then .error (.wish (.help p.verb))
    else if name = "version" then .error (.wish (.version p.verb))
    else refuse (.unexpected ("--" ++ name))
  | none, some _ => refuse (.unexpected ("--" ++ name))

/-- A switch by its letter. -/
def short (g : Grammar) (p : Progress) (letter : Char) : Except Stop Progress :=
  match (g.switchesOf p.verb).find? (·.letter == some letter) with
  | some s => p.give s ""
  | none =>
    if letter = 'h' then .error (.wish (.help p.verb))
    else if letter = 'V' then .error (.wish (.version p.verb))
    else refuse (.unexpected (String.ofList ['-', letter]))

/-- A word that is no switch. -/
def word (g : Grammar) (p : Progress) (w : String) : Except Stop Progress :=
  match p.verb with
  | none =>
    if p.plain then refuse (.unexpected w)
    else
      match g.verb? w with
      | some v => .ok { p with verb := some v, before := p.since, since := [] }
      | none =>
        if w = "help" && !p.helping then .ok { p with helping := true }
        else refuse (.unexpected w)
  | some v =>
    match v.operands[p.operands.length]? with
    | none => refuse (.unexpected w)
    | some o =>
      if o.accepts w then .ok { p with operands := p.operands ++ [w] }
      else refuse (.invalidValue w o.name)

/-- Divide at the first `=`. -/
def splitValue (cs : List Char) : String × Option String :=
  match cs.dropWhile (· != '=') with
  | [] => (String.ofList cs, none)
  | _ :: value => (String.ofList (cs.takeWhile (· != '=')), some (String.ofList value))

/-- Read a word. -/
def step (g : Grammar) (p : Progress) (w : String) : Except Stop Progress :=
  match p.pending with
  | some s =>
    match w.toList with
    | '-' :: _ :: _ => refuse (.missingValue s.name)
    | _ => p.give s w
  | none =>
    if p.helping then
      match p.verb with
      | some _ => refuse (.unexpected w)
      | none => p.word g w
    else if p.plain then p.word g w
    else
      match w.toList with
      | ['-', '-'] => .ok { p with plain := true }
      | '-' :: '-' :: cs => p.long g (splitValue cs).1 (splitValue cs).2
      | '-' :: c :: cs => (c :: cs).foldlM (short g) p
      | _ => p.word g w

/-- What is wished when all words have been read. -/
def wish (p : Progress) : Except Misuse Wish := do
  if let some s := p.pending then throw (.missingValue s.name)
  if p.helping then return .help p.verb
  match p.verb with
  | none => throw .noCommand
  | some verb =>
    if let some o := verb.operands[p.operands.length]? then throw (.missing o.name)
    let given := fun (name : String) => p.since.any (·.1 == name)
    if let some s := verb.switches.find? fun s => s.required && !given s.name then
      throw (.missing ("--" ++ s.name))
    if let some (a, b) := verb.conflicts.find? fun (a, b) => given a && given b then
      throw (.conflict a b)
    return .command { verb, switches := p.before ++ p.since, operands := p.operands }

end Progress

/-- Read the words of a command line. -/
def Grammar.read (g : Grammar) (words : List String) : Except Misuse Wish :=
  match words.foldlM (Progress.step g) {} with
  | .ok p => p.wish
  | .error (.wish w) => .ok w
  | .error (.misuse m) => .error m

end DurableWorkflow.CommandLine
