/-!
# Powers of two, ten and sixteen

The limits of fixed widths, and the weights of digits.
-/

namespace DurableWorkflow

/-- `2 ^ n`: one more than the largest number of `n` bits. -/
abbrev twoTo (n : Nat) : Nat := Nat.pow 2 n

/-- `10 ^ n`: the weight of decimal digit `n`. -/
abbrev tenTo (n : Nat) : Nat := Nat.pow 10 n

end DurableWorkflow
