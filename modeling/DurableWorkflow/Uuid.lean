import DurableWorkflow.Json.Decode
import DurableWorkflow.Number.Power
import DurableWorkflow.Text.Digits

/-!
# Universally unique identifiers

128 bits, printed in lower case with hyphens and ordered as numbers. Read with or without hyphens,
in braces, or after `urn:uuid:`, letters in either case.
-/

namespace DurableWorkflow

structure Uuid where
  bits : BitVec 128
  deriving DecidableEq, Repr, Inhabited

namespace Uuid

def ofNat (n : Nat) : Uuid := ⟨BitVec.ofNat 128 n⟩

/-- The order of the identifiers as numbers. -/
def le (a b : Uuid) : Bool := a.bits.toNat ≤ b.bits.toNat

/-- The lowest `count` digits of base sixteen of `n`, highest first. -/
def hexDigits : Nat → Nat → List Char
  | 0, _ => []
  | count + 1, n => hexDigits count (n / 16) ++ [Text.hexDigit n]

/-- Groups of 8, 4, 4, 4 and 12 digits. -/
def text (u : Uuid) : String :=
  let n := u.bits.toNat
  let group := fun shift count => String.ofList (hexDigits count (n / twoTo (4 * shift)))
  "-".intercalate [group 24 8, group 20 4, group 16 4, group 12 4, group 0 12]

instance : ToString Uuid := ⟨text⟩

/-- Digits of base sixteen, nothing else. -/
def ofHex? (cs : List Char) : Option Uuid :=
  (cs.mapM Text.hexValue?).map fun ds => ofNat (ds.foldl (fun n d => 16 * n + d) 0)

/-- 36 characters with hyphens in the places 8, 13, 18 and 23. -/
def ofHyphenated? (cs : List Char) : Option Uuid :=
  if cs.length = 36 && [8, 13, 18, 23].all (fun i => cs[i]? == some '-') then
    ofHex? (cs.take 8 ++ (cs.drop 9).take 4 ++ (cs.drop 14).take 4 ++ (cs.drop 19).take 4
      ++ cs.drop 24)
  else none

def ofText? (s : String) : Option Uuid :=
  let cs := s.toList
  if cs.length = 32 then ofHex? cs
  else if cs.length = 38 && cs.head? == some '\x7b' && cs.getLast? == some '\x7d' then
    ofHyphenated? ((cs.drop 1).take 36)
  else if cs.length = 45 && (cs.take 9).map Char.toLower == "urn:uuid:".toList then
    ofHyphenated? (cs.drop 9)
  else ofHyphenated? cs

def toJson (u : Uuid) : Json := .str u.text

def ofJson? (j : Json) : Option Uuid := j.toText?.bind ofText?

/-- The time-ordered identifier with `millis` since the epoch in its first 48 bits; `rest` fills
the 74 bits that version and variant leave. -/
def timeOrdered (millis rest : Nat) : Uuid :=
  let high := rest / twoTo 62 % twoTo 12
  let low := rest % twoTo 62
  ofNat ((((millis % twoTo 48) * twoTo 16 + 0x7000 + high) * twoTo 64) + twoTo 63 + low)

/-- The number of the version in the identifier. -/
def version (u : Uuid) : Nat := u.bits.toNat / twoTo 76 % 16

end Uuid

end DurableWorkflow
