import DurableWorkflow.Json.Decode
import DurableWorkflow.Number.Power
import DurableWorkflow.Text.Digits
import DurableWorkflow.Text.Printable

/-!
# Semantic versions

`major.minor.patch`, then optionally `-` and a pre-release, and `+` and build metadata. Reading
reports the first fault with the part it was found in.
-/

namespace DurableWorkflow

structure Version where
  major : Nat
  minor : Nat
  patch : Nat
  pre : String := ""
  build : String := ""
  deriving DecidableEq, Repr, Inhabited

namespace Version

/-- The parts of a version in the order of its text. -/
inductive Part where
  | major | minor | patch | pre | build
  deriving DecidableEq, Repr

def Part.text : Part → String
  | .major => "major version number"
  | .minor => "minor version number"
  | .patch => "patch version number"
  | .pre => "pre-release identifier"
  | .build => "build metadata"

/-- Why a text is no version. -/
inductive Fault where
  | empty
  | unexpectedEnd (part : Part)
  | unexpectedChar (part : Part) (c : Char)
  | unexpectedAfter (part : Part) (c : Char)
  | leadingZero (part : Part)
  | overflow (part : Part)
  | emptySegment (part : Part)
  deriving DecidableEq, Repr

def Fault.message : Fault → String
  | .empty => "empty string, expected a semver version"
  | .unexpectedEnd p => "unexpected end of input while parsing " ++ p.text
  | .unexpectedChar p c =>
    "unexpected character " ++ Text.quotedChar c ++ " while parsing " ++ p.text
  | .unexpectedAfter p c => "unexpected character " ++ Text.quotedChar c ++ " after " ++ p.text
  | .leadingZero p => "invalid leading zero in " ++ p.text
  | .overflow p => "value of " ++ p.text ++ " exceeds u64::MAX"
  | .emptySegment p => "empty identifier segment in " ++ p.text

def text (v : Version) : String :=
  toString v.major ++ "." ++ toString v.minor ++ "." ++ toString v.patch
    ++ (if v.pre.isEmpty then "" else "-" ++ v.pre)
    ++ (if v.build.isEmpty then "" else "+" ++ v.build)

instance : ToString Version := ⟨text⟩

/-- Take digits off the front, `count` of value `n` being read already. -/
def readDigits (part : Part) : Nat → Nat → List Char → Except Fault (Nat × Nat × List Char)
  | count, n, [] => .ok (count, n, [])
  | count, n, c :: cs =>
    if !c.isDigit then .ok (count, n, c :: cs)
    else if n = 0 && count > 0 then .error (.leadingZero part)
    else
      let m := 10 * n + (c.toNat - '0'.toNat)
      if m < twoTo 64 then readDigits part (count + 1) m cs else .error (.overflow part)

def readNumber (part : Part) (cs : List Char) : Except Fault (Nat × List Char) := do
  let (count, n, rest) ← readDigits part 0 0 cs
  if count > 0 then return (n, rest)
  match rest with
  | c :: _ => throw (.unexpectedChar part c)
  | [] => throw (.unexpectedEnd part)

def readDot (part : Part) : List Char → Except Fault (List Char)
  | '.' :: cs => .ok cs
  | c :: _ => .error (.unexpectedAfter part c)
  | [] => .error (.unexpectedEnd part)

def isSegmentChar (c : Char) : Bool := c.isAlphanum || c == '-'

/-- Segments of letters, digits and hyphens with points between them; `done` is what has been
accepted, backwards. -/
def readSegments (part : Part) : Nat → List Char → List Char → Except Fault (String × List Char)
  | 0, _, _ => .error (.emptySegment part)
  | fuel + 1, done, cs =>
    let segment := cs.takeWhile isSegmentChar
    let rest := cs.dropWhile isSegmentChar
    if segment.isEmpty then
      if done.isEmpty && rest.head? != some '.' then .ok ("", cs) else .error (.emptySegment part)
    else if part = .pre && segment.all Char.isDigit && segment.length > 1
        && segment.head? == some '0' then
      .error (.leadingZero part)
    else
      let done := segment.reverse ++ done
      match rest with
      | '.' :: rest => readSegments part fuel ('.' :: done) rest
      | rest => .ok (String.ofList done.reverse, rest)

/-- What follows `mark`, if it is there: segments that must not be empty. -/
def readLabel (part : Part) (mark : Char) (cs : List Char) :
    Except Fault (Bool × String × List Char) :=
  match cs with
  | c :: rest =>
    if c = mark then do
      let (s, rest) ← readSegments part (rest.length + 1) [] rest
      if s.isEmpty then throw (.emptySegment part)
      return (true, s, rest)
    else .ok (false, "", cs)
  | [] => .ok (false, "", [])

def parse (s : String) : Except Fault Version := do
  if s.isEmpty then throw .empty
  let (major, cs) ← readNumber .major s.toList
  let cs ← readDot .major cs
  let (minor, cs) ← readNumber .minor cs
  let cs ← readDot .minor cs
  let (patch, cs) ← readNumber .patch cs
  let (hasPre, pre, cs) ← readLabel .pre '-' cs
  let (hasBuild, build, cs) ← readLabel .build '+' cs
  match cs with
  | [] => return { major, minor, patch, pre, build }
  | c :: _ =>
    throw (.unexpectedAfter (if hasBuild then .build else if hasPre then .pre else .patch) c)

def toJson (v : Version) : Json := .str v.text

def ofJson? (j : Json) : Option Version := j.toText?.bind fun s => (parse s).toOption

end Version

end DurableWorkflow
