import DurableWorkflow.Config
import DurableWorkflow.Number.Power
import DurableWorkflow.Time.Timestamp

/-!
# Retry policies

How often a failing step is tried and how long to wait in between. The wait after attempt `n` is
`baseDelay · multiplier ^ (n - 1)`, at most `maxDelay`, computed in binary64 nanoseconds.
-/

namespace DurableWorkflow

/-! ### Errors of a step -/

/-- Why an attempt at a step failed. -/
inductive StepError where
  | failed (message : String)
  | panicked (message : String)
  | timedOut (step : String) (limit : Nanos)
  | infrastructure (message : String)
  deriving DecidableEq, Repr, Inhabited

namespace StepError

def message : StepError → String
  | failed m => m
  | panicked m => "step panicked: " ++ m
  | timedOut step limit => step ++ " exceeded timeout of " ++ toString limit.seconds ++ "s"
  | infrastructure m => m

end StepError

/-! ### Policies -/

structure RetryPolicy where
  /-- All attempts, the first one included. -/
  maxAttempts : Nat := 3
  baseDelay : Nanos := Nanos.ofMillis 200
  multiplier : Binary64 := Binary64.ofNat 2
  maxDelay : Nanos := Nanos.ofSeconds 30
  /-- Says which errors may be retried; without it all may. -/
  retryIf : Option (StepError → Bool) := none
  deriving Inhabited

namespace RetryPolicy

/-- So many attempts, at least one. -/
def ofAttempts (n : Nat) : RetryPolicy := { maxAttempts := max n 1 }

def noRetry : RetryPolicy := ofAttempts 1

/-- A multiplier that is finite and at least one. -/
def clampMultiplier (x : Binary64) : Binary64 :=
  let one := Binary64.ofNat 1
  if x.isFinite then if x.lt one then one else x else one

def withMultiplier (p : RetryPolicy) (x : Binary64) : RetryPolicy :=
  { p with multiplier := clampMultiplier x }

def ofConfig (c : RetryConfig) : RetryPolicy :=
  { ofAttempts c.maxAttempts with
    baseDelay := Nanos.ofMillis c.baseDelayMillis
    multiplier := clampMultiplier c.multiplier
    maxDelay := Nanos.ofMillis c.maxDelayMillis }

/-- May another attempt follow the failed attempt `attempt`, counted from one? -/
def allowsRetry (p : RetryPolicy) (attempt : Nat) (error : StepError) : Bool :=
  attempt < p.maxAttempts && p.retryIf.all fun ok => ok error

theorem lt_of_allowsRetry {p : RetryPolicy} {attempt : Nat} {error : StepError}
    (h : p.allowsRetry attempt error = true) : attempt < p.maxAttempts := by
  simp [allowsRetry] at h
  exact h.1

/-- Longest delay that is rounded to nanoseconds, in nanoseconds. -/
def delayLimit : Nat := twoTo 64 - 1

/-- The wait after the failed attempt `attempt`, counted from one. -/
def delayFor (p : RetryPolicy) (attempt : Nat) : Nanos :=
  let exponent := min (attempt - 1) (twoTo 31 - 1)
  let nanos := (Binary64.ofNat p.baseDelay).mul (p.multiplier.pow exponent)
  if !nanos.isFinite || (Binary64.ofNat p.maxDelay).le nanos then p.maxDelay
  else nanos.roundHalfAway.toNatClamped delayLimit

end RetryPolicy

end DurableWorkflow
