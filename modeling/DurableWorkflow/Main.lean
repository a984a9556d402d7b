import DurableWorkflow.CommandLine.Help
import DurableWorkflow.CommandLine.Service
import DurableWorkflow.Repository.Table
import Std.Time.DateTime.Timestamp

/-!
# The program

Reads the command line, the configuration and the stored table, carries the command out, and stores
the table again. Exits with 0, with 1 after a failure, and with 2 after a command line that does not
fit.
-/

namespace DurableWorkflow.CommandLine

/-- The time of day. -/
def clockTime : IO Timestamp := do
  let nanos := (← Std.Time.Timestamp.now).toNanosecondsSinceUnixEpoch.val
  return ⟨nanos / 1000000000, (nanos % 1000000000).toNat⟩

/-- A number of 72 random bits. -/
def randomNumber : IO Nat := do
  return (← IO.getRandomBytes 9).data.foldl (fun n b => 256 * n + b.toNat) 0

/-- What `action` gives, or nothing if it fails. -/
def attempt {α : Type} (action : IO α) : IO (Option α) :=
  try
    return some (← action)
  catch _ => return none

def printLines (out : IO.FS.Stream) (lines : List String) : IO Unit := do
  lines.forM out.putStrLn
  out.flush

def fail (causes : List String) : IO UInt32 := do
  printLines (← IO.getStderr) (Trouble.lines (.failed causes))
  return 1

/-- Carry a job out on the table in a database, and store what it leaves. -/
def onTable {α : Type} (database : Database) (job : Job α) : IO (Except Trouble α) := do
  let stored ← match database with
    | .file path => attempt (IO.FS.readFile path)
    | .memory => pure none
  match (stored.map Table.ofText?).getD (some {}) with
  | none => return .error (.failed ["Failed to open database", "file is not a database"])
  | some table =>
    let world : Office :=
      { store := table, memory := (), wall := ← clockTime, minted := ← randomNumber }
    let (result, world) := job.run world
    if let .file path := database then IO.FS.writeFile path world.store.toText
    return result

/-- Sweep again and again. -/
partial def watch (v : Service) : IO Unit := do
  let _ ← onTable v.database v.sweep
  IO.sleep (v.interval / Nanos.perMilli).toUInt32
  watch v

def call (c : Call) : IO UInt32 := do
  let dir := c.dataDir.getD
    (DataDir.resolve (← IO.getEnv dataDirVariable) (← IO.getEnv "HOME"))
  if (← attempt (IO.FS.createDirAll dir)).isNone then
    fail ["Failed to create data directory " ++ dir]
  else
    let config := EngineConfig.ofFile
      (← attempt (IO.FS.readBinFile (DataDir.inside dir "config.toml")))
    match Service.ofConfig dir config with
    | .error t =>
      printLines (← IO.getStderr) t.lines
      return 1
    | .ok v =>
      match ← onTable v.database (v.perform c.json c.command) with
      | .error t =>
        printLines (← IO.getStderr) t.lines
        return 1
      | .ok page =>
        printLines (← IO.getStdout) page.lines
        if c.command = .sweep true then watch v
        return 0

end DurableWorkflow.CommandLine

open DurableWorkflow.CommandLine in
def main (words : List String) : IO UInt32 := do
  let dir ← IO.getEnv dataDirVariable
  match Request.ofWords words with
  | .error m =>
    printLines (← IO.getStderr) ["error: " ++ m.message, "", grammar.usage none]
    return 2
  | .ok (.help verb) =>
    printLines (← IO.getStdout) (grammar.helpLines (fun _ => dir) verb)
    return 0
  | .ok (.version verb) =>
    printLines (← IO.getStdout) [grammar.versionLine verb]
    return 0
  | .ok (.call c) => call c
