import DurableWorkflow.Json.Decode
import DurableWorkflow.Number.Shortest

/-!
# Configuration

Every setting has a default, and any of them may be left out. Records are read from an object or
from the list of their fields; JSON refuses a list that is too long, TOML ignores what is beyond.
-/

namespace DurableWorkflow

/-- The retry policy of steps that have none of their own. -/
structure RetryConfig where
  maxAttempts : Nat := 3
  baseDelayMillis : Nat := 200
  multiplier : Binary64 := Binary64.ofNat 2
  maxDelayMillis : Nat := 30000
  deriving Repr, Inhabited

structure ExecutionConfig where
  /-- Undo the completed steps of a run that fails. -/
  compensation : Bool := true
  trackContextSize : Bool := false
  maxNodeVisits : Nat := 10000
  deriving Repr, Inhabited

structure SignalConfig where
  /-- How long to wait where a step does not say; without it forever. -/
  defaultWaitSeconds : Option Nat := none
  sweepIntervalSeconds : Nat := 60
  deriving Repr, Inhabited

structure EngineConfig where
  retry : RetryConfig := {}
  engine : ExecutionConfig := {}
  signals : SignalConfig := {}
  databaseUrl : Option String := none
  deriving Repr, Inhabited

/-- Takes the fields of these names from a value. -/
abbrev FieldReader := List String → Json → Option Json.Fields

def RetryConfig.read (fields : FieldReader) (j : Json) : Option RetryConfig := do
  let fs ← fields ["max_attempts", "base_delay_ms", "multiplier", "max_delay_ms"] j
  let d : RetryConfig := {}
  some {
    maxAttempts := ← fs.orElse "max_attempts" d.maxAttempts (Json.toNat? 32)
    baseDelayMillis := ← fs.orElse "base_delay_ms" d.baseDelayMillis (Json.toNat? 64)
    multiplier := ← fs.orElse "multiplier" d.multiplier Json.toBinary64?
    maxDelayMillis := ← fs.orElse "max_delay_ms" d.maxDelayMillis (Json.toNat? 64) }

def RetryConfig.ofJson? (j : Json) : Option RetryConfig := read Json.Fields.ofJson? j

def ExecutionConfig.read (fields : FieldReader) (j : Json) : Option ExecutionConfig := do
  let fs ← fields ["compensation", "track_context_size", "max_node_visits"] j
  let d : ExecutionConfig := {}
  some {
    compensation := ← fs.orElse "compensation" d.compensation Json.toBool?
    trackContextSize := ← fs.orElse "track_context_size" d.trackContextSize Json.toBool?
    maxNodeVisits := ← fs.orElse "max_node_visits" d.maxNodeVisits (Json.toNat? 64) }

def SignalConfig.read (fields : FieldReader) (j : Json) : Option SignalConfig := do
  let fs ← fields ["default_wait_timeout_secs", "sweep_interval_secs"] j
  let d : SignalConfig := {}
  some {
    defaultWaitSeconds := ← fs.optional "default_wait_timeout_secs" (Json.toNat? 64)
    sweepIntervalSeconds := ←
      fs.orElse "sweep_interval_secs" d.sweepIntervalSeconds (Json.toNat? 64) }

namespace EngineConfig

def read (fields : FieldReader) (j : Json) : Option EngineConfig := do
  let fs ← fields ["retry", "engine", "signals", "database_url"] j
  some {
    retry := ← fs.orElse "retry" {} (RetryConfig.read fields)
    engine := ← fs.orElse "engine" {} (ExecutionConfig.read fields)
    signals := ← fs.orElse "signals" {} (SignalConfig.read fields)
    databaseUrl := ← fs.optional "database_url" Json.toText? }

def ofJson? (j : Json) : Option EngineConfig := read Json.Fields.ofJson? j

/-- The configuration that a TOML document holds. -/
def ofDocument? (j : Json) : Option EngineConfig := read Json.Fields.ofLeading? j

/-- The members of the configuration, with the multiplier written by `number`. -/
def toJsonWith (number : Binary64 → Json) (c : EngineConfig) : Json :=
  let given := fun (name : String) (j : Option Json) => (j.map fun j => (name, j)).toList
  .obj (
    [("retry", .obj [("max_attempts", .nat c.retry.maxAttempts),
        ("base_delay_ms", .nat c.retry.baseDelayMillis), ("multiplier", number c.retry.multiplier),
        ("max_delay_ms", .nat c.retry.maxDelayMillis)]),
      ("engine", .obj [("compensation", .bool c.engine.compensation),
        ("track_context_size", .bool c.engine.trackContextSize),
        ("max_node_visits", .nat c.engine.maxNodeVisits)]),
      ("signals", .obj (given "default_wait_timeout_secs" (c.signals.defaultWaitSeconds.map .nat)
        ++ [("sweep_interval_secs", .nat c.signals.sweepIntervalSeconds)]))]
    ++ given "database_url" (c.databaseUrl.map .str))

end EngineConfig

end DurableWorkflow
