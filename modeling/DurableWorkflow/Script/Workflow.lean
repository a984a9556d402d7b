import DurableWorkflow.Program
import DurableWorkflow.Script.Behaviour
import DurableWorkflow.Text.Blank

/-!
# Workflows written in JSON

Reading scripted steps, policies, conditions and whole programs. Every step gets numbers of its own
for counting its calls. What is missing or of the wrong kind counts as its default.
-/

namespace DurableWorkflow.Script

def text (j : Json) : String := j.toText?.getD ""

def natural : Json → Nat
  | .int n => n.toNat
  | _ => 0

def integer : Json → Int
  | .int n => n
  | _ => 0

def truth (standard : Bool) (j : Json) : Bool := j.toBool?.getD standard

def items : Json → List Json
  | .arr js => js
  | _ => []

/-- The first items of a list, or `null`s. -/
def pair (j : Json) : Json × Json := ((items j).headD .null, (items j).tail.headD .null)

/-- The only member of an object. -/
def variant : Json → Option (String × Json)
  | .obj ((name, j) :: _) => some (name, j)
  | .str name => some (name, .null)
  | _ => none

/-- A member that is there and not `null`. -/
def given (j : Json) (name : String) : Option Json :=
  match j.get? name with
  | some .null => none
  | m => m

def act? (j : Json) : Option Act :=
  (variant j).bind fun (kind, a) =>
    let (x, y) := pair a
    match kind with
    | "log" => some (.log (text a))
    | "set" => some (.set (text x) y.canonical)
    | "unset" => some (.unset (text a))
    | "add" => some (.add (text x) (integer y))
    | "pad" => some (.pad (text x) (natural y))
    | "payload" => some (.payload (text x) (text y))
    | "sleep" => some (.sleep (natural a))
    | "await_cancel" => some .awaitCancel
    | "cancel_run" => some .cancelRun
    | _ => none

def out (j : Json) : Out :=
  match variant j with
  | none => .ok
  | some (kind, a) =>
    let (x, y) := pair a
    match kind with
    | "fail" => .fail (text a)
    | "retry" => .retry (text a)
    | "retry_timed_out" => .retryTimedOut (natural a)
    | "fail_infra" => .failInfrastructure (text a)
    | "suspend" => .suspend (text a)
    | "suspend_for" => .suspendFor (text x) (natural y)
    | "panic" => .crash (text a)
    | "panic_str" => .crash "static boom"
    | "panic_any" => .crash "non-string panic payload"
    | "approve" => .approve (text x) (text y)
    | _ => .ok

def behaviour (j : Json) : Behaviour :=
  { acts := (items (j.member "acts")).filterMap act?, out := out (j.member "out") }

def behaviours (j : Json) : List Behaviour := (items j).map behaviour

def multiplier : Json → Binary64
  | .str "nan" => .nan
  | .str "inf" => .infinite false
  | .str "-inf" => .infinite true
  | j => j.toBinary64?.getD Binary64.zero

def retryIf (j : Json) (e : StepError) : Bool :=
  match j with
  | .str "never" => false
  | .str "not_timed_out" =>
    match e with
    | .timedOut .. => false
    | _ => true
  | j => Text.contains e.message (text (j.member "contains"))

/-- A policy: the number of attempts, then whatever else is said. -/
def policy (j : Json) : RetryPolicy :=
  let p := if truth false (j.member "no_retry") then RetryPolicy.noRetry
    else RetryPolicy.ofAttempts (natural (j.member "max_attempts"))
  let p := match given j "base_ns" with
    | some n => { p with baseDelay := natural n }
    | none => p
  let p := match given j "base_ms" with
    | some n => { p with baseDelay := Nanos.ofMillis (natural n) }
    | none => p
  let p := match given j "multiplier" with
    | some x => p.withMultiplier (multiplier x)
    | none => p
  let p := match given j "max_ns" with
    | some n => { p with maxDelay := natural n }
    | none => p
  let p := match given j "max_ms" with
    | some n => { p with maxDelay := Nanos.ofMillis (natural n) }
    | none => p
  match given j "retry_if" with
  | some f => { p with retryIf := some (retryIf f) }
  | none => p

/-- A condition on the notes; `depth` bounds its nesting. -/
def condition : Nat → Json → Notes → Except String Bool
  | 0, _, _ => .ok false
  | depth + 1, j, n =>
    match variant j with
    | some ("const", b) => .ok (truth false b)
    | some ("flag", k) =>
      match n.var? (text k) with
      | some (.bool b) => .ok b
      | _ => .ok false
    | some ("gt", a) =>
      match n.int? (text (pair a).1) with
      | some i => .ok (i > integer (pair a).2)
      | none => .ok false
    | some ("not", p) => (condition depth p n).map (!·)
    | some ("panic", m) => .error (text m)
    | _ => .ok false

/-- A step that only has a name. -/
def plainStep (name : String) : Step Notes Tally where
  name
  execute := do
    ScriptWork.note fun n => n.write (name ++ ":" ++ toString n.vars.length)
    pure .success

/-- A step that writes a line and succeeds. -/
def writer (name line : String) : Step Notes Tally where
  name
  execute := do
    ScriptWork.note (·.write line)
    pure .success

/-- A step called `name` whose methods are counted from the number `first` on. -/
def step (name : String) (first : Nat) (j : Json) : Step Notes Tally :=
  if truth false (j.member "plain") then plainStep name
  else
    let onSignal := behaviours (j.member "on_signal")
    { name
      execute := match behaviours (j.member "run") with
        | [] => (writer name name).execute
        | bs => Behaviour.playNext name first bs .null
      onSignal := fun signal => Behaviour.playNext name (first + 1) onSignal signal.payload
      compensate := (given j "compensate").map fun c =>
        Behaviour.playNext name (first + 2) (behaviours c) .null
      canRetry := truth true (j.member "can_retry")
      limit := (given j "timeout_ms").map fun ms => Nanos.ofMillis (natural ms)
      retryPolicy := (given j "retry").map policy
      maySuspend := truth false (j.member "may_suspend") }

/-- Reading hands out numbers for counting calls. -/
abbrev Reading := StateM Nat

/-- The next step, with `{i}` in its name replaced by `index`. -/
def readStep (index : Option Nat) (j : Json) : Reading (Step Notes Tally) := fun n =>
  let name := text (j.member "name")
  let name := match index with
    | some i => (toString i).intercalate (name.splitOn "\x7bi\x7d")
    | none => name
  (step name n j, n + 3)

mutual

/-- The items that one call adds. -/
def readItems : Nat → Option Nat → Json → Reading (List (Item Notes Tally))
  | 0, _, _ => pure []
  | depth + 1, index, j =>
    match variant j with
    | some ("start", s) | some ("then", s) => do return [.step (← readStep index s)]
    | some ("resolved", type) => pure [.registered (text type)]
    | some ("delay", ms) => pure [.delay (Nanos.ofMillis (natural ms))]
    | some ("when", a) => do
      return [.choice (condition 100 (pair a).1) (← readArms depth (items (pair a).2))]
    | some ("parallel", bs) => do return [.parallel (← readBranches depth (items bs))]
    | some ("sequence", cs) => do return [.sequence (← readChain depth (items cs))]
    | some ("repeat", a) => do
      let rounds ← (List.range (natural (pair a).1)).mapM fun i =>
        readItems depth (some i) (pair a).2
      return rounds.flatten
    | _ => pure []

def readArms : Nat → List Json → Reading (List (Arm Notes Tally))
  | 0, _ => pure []
  | _ + 1, [] => pure []
  | depth + 1, j :: js => do
    let arm ← match variant j with
      | some ("then", cs) => do pure [Arm.whenTrue (← readChain depth (items cs))]
      | some ("else", cs) => do pure [Arm.whenFalse (← readChain depth (items cs))]
      | _ => pure []
    return arm ++ (← readArms depth js)

def readBranches : Nat → List Json → Reading (List (Branch Notes Tally))
  | 0, _ => pure []
  | _ + 1, [] => pure []
  | depth + 1, j :: js => do
    let branch ← match variant j with
      | some ("step", s) => do pure [Branch.single (← readStep none s)]
      | some ("branch", cs) => do pure [Branch.chain (← readChain depth (items cs))]
      | _ => pure []
    return branch ++ (← readBranches depth js)

def readChain : Nat → List Json → Reading (List (Item Notes Tally))
  | 0, _ => pure []
  | _ + 1, [] => pure []
  | depth + 1, j :: js => do
    let here ← readItems depth none j
    return here ++ (← readChain depth js)

end

/-- The calls of a workflow that one entry makes. -/
def readCalls : Nat → Option Nat → Json → Reading (List (Call Notes Tally))
  | 0, _, _ => pure []
  | depth + 1, index, j =>
    match variant j with
    | some ("start", s) => do return [.start (← readStep index s)]
    | some ("timeout", ms) => pure [.bound (Nanos.ofMillis (natural ms))]
    | some ("repeat", a) => do
      let rounds ← (List.range (natural (pair a).1)).mapM fun i =>
        readCalls depth (some i) (pair a).2
      return rounds.flatten
    | _ => do return (← readItems depth index j).map .append

/-- Nesting and length of what is read. -/
def depthLimit : Nat := 100000

/-- Read a workflow, its steps being numbered from `first` on. -/
def readProgram (first : Nat) (j : Json) : Program Notes Tally × Nat :=
  let (calls, next) := ((items (j.member "calls")).mapM (readCalls depthLimit none)).run first
  ({ id := text (j.member "id"), name := text (j.member "name")
     version := text (j.member "version"), calls := calls.flatten }, next)

/-- The steps registered by the entries `[type, line]`. -/
def registry (j : Json) : Registry Notes Tally :=
  (items j).foldl
    (fun r e => r.register (text (pair e).1) (writer (text (pair e).2) (text (pair e).2))) {}

end DurableWorkflow.Script
