import DurableWorkflow.Number.Decimal
import DurableWorkflow.Number.Power
import DurableWorkflow.Text.Blank

/-!
# Amounts of money

An amount is a number of cents below `2 ^ 64`. It is printed with two places. It is read through a
binary64 number, which is multiplied by a hundred and rounded, a half upward.
-/

namespace DurableWorkflow.Amount

/-- The largest amount. -/
def maxCents : Nat := twoTo 64 - 1

def text (cents : Nat) : String := toString (cents / 100) ++ "." ++ Text.padded 2 (cents % 100)

/-- What is said of a text that is no amount. -/
def invalidMessage (s : String) : String := "'" ++ s ++ "' is not a valid amount"

/-- The cents of a number, unless it is negative or not finite. -/
def ofNumber? (x : Binary64) : Option Nat :=
  if !x.isFinite || x.lt Binary64.zero then none
  else some ((x.mul (Binary64.ofNat 100)).roundHalfAway.toNatClamped maxCents)

/-- Read an amount with blanks around it; what is too large counts as the largest amount. -/
def parse (s : String) : Except String Nat :=
  match (Binary64.ofText? (Text.trimmed s)).bind ofNumber? with
  | some cents => .ok cents
  | none => .error (invalidMessage s)

end DurableWorkflow.Amount
