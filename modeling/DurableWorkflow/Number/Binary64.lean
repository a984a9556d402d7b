import DurableWorkflow.Number.Power

/-!
# Binary64 numbers in exact arithmetic

A finite number is `± mantissa · 2 ^ exponent`. Every operation computes the exact rational result
and rounds it once with `ofRatio`: to the nearest representable number, a tie to the even mantissa,
and beyond the largest finite number to infinity. Nothing here depends on the machine's floats.
-/

namespace DurableWorkflow

/-- A number of the IEEE 754 binary64 format. Signed zero is a finite number with mantissa zero. -/
inductive Binary64 where
  | finite (negative : Bool) (mantissa : Nat) (exponent : Int)
  | infinite (negative : Bool)
  | nan
  deriving DecidableEq, Repr, Inhabited

namespace Binary64

/-- The smallest exponent of the format. -/
def minExponent : Int := -1074

/-- The largest exponent of the format, with a mantissa below `2 ^ 53`. -/
def maxExponent : Int := 971

def zero : Binary64 := .finite false 0 minExponent

/-- `n · 2 ^ e` as a fraction. -/
def scaled (n : Nat) (e : Int) : Nat × Nat :=
  if e < 0 then (n, twoTo (-e).toNat) else (n * twoTo e.toNat, 1)

/-- The quotient rounded to the nearest natural number, a tie to the even one. -/
def divNearestEven (n d : Nat) : Nat :=
  let q := n / d
  let r := n % d
  if 2 * r > d || (2 * r == d && q % 2 == 1) then q + 1 else q

/-- The exponent that leaves 53 bits of `n / d` in the mantissa, or the smallest one. -/
def ratioExponent (n d : Nat) : Int :=
  let e : Int := (n.log2 : Int) - (d.log2 : Int) - 53
  let (a, b) := scaled d e
  let e := if n * b < a * twoTo 53 then e else e + 1
  if e < minExponent then minExponent else e

/-- The number nearest to `± n / d`. -/
def ofRatio (negative : Bool) (n d : Nat) : Binary64 :=
  if n = 0 then .finite negative 0 minExponent
  else
    let e := ratioExponent n d
    let (a, b) := scaled d e
    let m := divNearestEven (n * b) a
    let (m, e) := if m = twoTo 53 then (twoTo 52, e + 1) else (m, e)
    if e > maxExponent then .infinite negative else .finite negative m e

def ofNat (n : Nat) : Binary64 := ofRatio false n 1

def ofInt (i : Int) : Binary64 := ofRatio (i < 0) i.natAbs 1

/-- `± digits · 10 ^ exponent`. -/
def ofDecimal (negative : Bool) (digits : Nat) (exponent : Int) : Binary64 :=
  if digits = 0 then ofRatio negative 0 1
  else if exponent > 400 then .infinite negative
  else if exponent < 0 then ofRatio negative digits (tenTo (-exponent).toNat)
  else ofRatio negative (digits * tenTo exponent.toNat) 1

def isFinite : Binary64 → Bool
  | .finite .. => true
  | _ => false

def isNegative : Binary64 → Bool
  | .finite s _ _ => s
  | .infinite s => s
  | .nan => false

def neg : Binary64 → Binary64
  | .finite s m e => .finite (!s) m e
  | .infinite s => .infinite (!s)
  | .nan => .nan

/-- The product, rounded once. -/
def mul : Binary64 → Binary64 → Binary64
  | .nan, _ | _, .nan => .nan
  | .infinite s, .infinite t => .infinite (s != t)
  | .infinite s, .finite t m _ => if m = 0 then .nan else .infinite (s != t)
  | .finite s m _, .infinite t => if m = 0 then .nan else .infinite (s != t)
  | .finite s m e, .finite t n f =>
    let (a, b) := scaled (m * n) (e + f)
    ofRatio (s != t) a b

/-- The quotient, rounded once. -/
def div : Binary64 → Binary64 → Binary64
  | .nan, _ | _, .nan => .nan
  | .infinite _, .infinite _ => .nan
  | .infinite s, .finite t _ _ => .infinite (s != t)
  | .finite s _ _, .infinite t => ofRatio (s != t) 0 1
  | .finite s m e, .finite t n f =>
    if n = 0 then if m = 0 then .nan else .infinite (s != t)
    else
      let (a, b) := scaled m (e - f)
      ofRatio (s != t) a (b * n)

/-- Signed mantissa of a finite number, in units of the smallest representable number. -/
def units : Bool → Nat → Int → Int
  | s, m, e =>
    let u : Int := (m * twoTo (e - minExponent).toNat : Nat)
    if s then -u else u

/-- `a < b`; false when either is not a number. -/
def lt : Binary64 → Binary64 → Bool
  | .nan, _ | _, .nan => false
  | .infinite s, .infinite t => s && !t
  | .infinite s, .finite .. => s
  | .finite .., .infinite t => !t
  | .finite s m e, .finite t n f => units s m e < units t n f

/-- `a ≤ b`; false when either is not a number. -/
def le : Binary64 → Binary64 → Bool
  | .nan, _ | _, .nan => false
  | a, b => !lt b a

/-- The integer part toward zero of a number that is not negative, kept within `limit`. -/
def toNatClamped (limit : Nat) : Binary64 → Nat
  | .nan => 0
  | .infinite s => if s then 0 else limit
  | .finite s m e =>
    let (a, b) := scaled m e
    if s then 0 else min limit (a / b)

/-- The nearest integer, a half away from zero. -/
def roundHalfAway : Binary64 → Binary64
  | .finite s m e =>
    let (a, b) := scaled m e
    ofRatio s ((2 * a + b) / (2 * b)) 1
  | x => x

/-- `x` to the `n`-th power by squaring, from the lowest bit of `n` up, rounding every product. -/
def pow (x : Binary64) (n : Nat) : Binary64 :=
  go n n x (ofNat 1)
where
  go : Nat → Nat → Binary64 → Binary64 → Binary64
    | 0, _, _, acc => acc
    | fuel + 1, n, x, acc =>
      let acc := if n % 2 = 1 then acc.mul x else acc
      if n / 2 = 0 then acc else go fuel (n / 2) (x.mul x) acc

end Binary64

end DurableWorkflow
