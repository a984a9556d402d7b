import DurableWorkflow.Number.Binary64
import DurableWorkflow.Number.Power
import DurableWorkflow.Text.Digits

/-!
# The shortest decimal text of a binary64 number

Among the decimals that read back as the number the one with the fewest digits is taken, and of
those the nearest. Positional notation is used from `1e-5` up to below `1e16`, always with a point;
everything else has an exponent with a sign and no zeros in front.
-/

namespace DurableWorkflow.Binary64

/-- `10 ^ p ≤ a / b < 10 ^ (p + 1)`, searched upward from `p`. -/
def tenExponent (a b : Nat) : Nat → Int → Int
  | 0, p => p
  | fuel + 1, p =>
    let (n, d) :=
      if p + 1 < 0 then (a * tenTo (-(p + 1)).toNat, b) else (a, b * tenTo (p + 1).toNat)
    if n < d then p else tenExponent a b fuel (p + 1)

/-- A decimal with `count` digits next to `a / b` that satisfies `ok`, the nearer of the two. -/
def nearestDecimal (a b : Nat) (p : Int) (count : Nat) (ok : Nat → Int → Bool) :
    Option (Nat × Int) :=
  let k : Int := p + 1 - count
  let (n, d) := if k < 0 then (a * tenTo (-k).toNat, b) else (a, b * tenTo k.toNat)
  let q := n / d
  let r := n % d
  match ok q k, ok (q + 1) k with
  | true, true => if 2 * r < d || (2 * r == d && q % 2 == 0) then some (q, k) else some (q + 1, k)
  | true, false => some (q, k)
  | false, true => some (q + 1, k)
  | false, false => none

/-- Digits and power of ten of the shortest decimal of the positive number `m · 2 ^ e`. -/
def shortest (m : Nat) (e : Int) : Nat × Int :=
  let (a, b) := scaled m e
  let log : Int := (a.log2 : Int) - (b.log2 : Int)
  let p := tenExponent a b 4 (log * 30103 / 100000 - 2)
  let ok := fun q k => ofDecimal false q k == .finite false m e
  match (List.range 17).findSome? fun i => nearestDecimal a b p (i + 1) ok with
  | some r => r
  | none => (a, 0)

/-- Digits without the zeros at their end, which go into the power of ten. -/
def stripZeros : Nat → Nat × Int → Nat × Int
  | 0, d => d
  | fuel + 1, (q, k) => if q % 10 == 0 then stripZeros fuel (q / 10, k + 1) else (q, k)

/-- `digits` with a point after the first `n` of them. -/
def pointAfter (digits : String) (n : Nat) : String :=
  String.ofList (digits.toList.take n) ++ "." ++ String.ofList (digits.toList.drop n)

/-- An exponent with its sign. -/
def exponentText (e : Int) : String :=
  "e" ++ (if e < 0 then "-" else "+") ++ toString e.natAbs

def zeros (n : Nat) : String := String.ofList (List.replicate n '0')

/-- The text of a positive finite number. -/
def positiveText (m : Nat) (e : Int) : String :=
  let (q, k) := stripZeros 20 (shortest m e)
  let digits := toString q
  let len : Int := digits.length
  let point := len + k
  if 0 ≤ k && point ≤ 16 then digits ++ zeros k.toNat ++ ".0"
  else if 0 < point && point ≤ 16 then pointAfter digits point.toNat
  else if -5 < point && point ≤ 0 then "0." ++ zeros (-point).toNat ++ digits
  else
    (if len == 1 then digits else pointAfter digits 1) ++ exponentText (point - 1)

/-- The text of any number; those that are not finite are `NaN`, `inf` and `-inf`. -/
def text : Binary64 → String
  | .nan => "NaN"
  | .infinite s => if s then "-inf" else "inf"
  | .finite s m e =>
    (if s then "-" else "") ++ if m = 0 then "0.0" else positiveText m e

end DurableWorkflow.Binary64
