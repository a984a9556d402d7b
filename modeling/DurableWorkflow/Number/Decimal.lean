import DurableWorkflow.Number.Binary64
import DurableWorkflow.Text.Digits

/-!
# Reading a binary64 number

A decimal is an optional sign, digits with at most one point among or around them, and an optional
exponent; at least one digit stands before the exponent. `inf`, `infinity` and `nan` are read in any
case. The value is the number nearest to the decimal.
-/

namespace DurableWorkflow.Binary64

/-- The exponent after the digits: nothing, or `e`, a sign and at least one digit. -/
def readExponent : List Char → Option Int
  | [] => some 0
  | c :: cs =>
    if c != 'e' && c != 'E' then none
    else
      let (negative, ds) := match cs with
        | '-' :: ds => (true, ds)
        | '+' :: ds => (false, ds)
        | ds => (false, ds)
      if ds.isEmpty || !ds.all Char.isDigit then none
      else
        -- an exponent of more than six places is beyond every number of the format
        let n : Int := if (ds.dropWhile (· == '0')).length > 6 then 1000000 else Text.digitsValue ds
        some (if negative then -n else n)

/-- `± digits · 10 ^ exponent`, where an exponent far below the format gives zero. -/
def ofWideDecimal (negative : Bool) (digits : Nat) (count : Nat) (exponent : Int) : Binary64 :=
  if exponent + count < -400 then ofRatio negative 0 1
  else if digits != 0 && exponent > 400 then .infinite negative
  else ofDecimal negative digits exponent

/-- Read a decimal without its sign. -/
def readUnsigned (negative : Bool) (cs : List Char) : Option Binary64 :=
  let whole := cs.takeWhile Char.isDigit
  let rest := cs.dropWhile Char.isDigit
  let (fraction, rest) := match rest with
    | '.' :: r => (r.takeWhile Char.isDigit, r.dropWhile Char.isDigit)
    | r => ([], r)
  if whole.isEmpty && fraction.isEmpty then none
  else
    (readExponent rest).map fun e =>
      let digits := whole ++ fraction
      ofWideDecimal negative (Text.digitsValue digits) digits.length (e - fraction.length)

/-- Read a number from the whole of `cs`. -/
def ofChars? (cs : List Char) : Option Binary64 :=
  let (negative, body) := match cs with
    | '-' :: r => (true, r)
    | '+' :: r => (false, r)
    | r => (false, r)
  let word := String.ofList (body.map Char.toLower)
  if word == "inf" || word == "infinity" then some (.infinite negative)
  else if word == "nan" then some .nan
  else readUnsigned negative body

/-- Read a number from the whole text. -/
def ofText? (s : String) : Option Binary64 := ofChars? s.toList

end DurableWorkflow.Binary64
