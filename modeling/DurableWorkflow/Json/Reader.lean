import DurableWorkflow.Json.Basic
import DurableWorkflow.Number.Decimal
import DurableWorkflow.Number.Power

/-!
# Reading JSON text

The grammar of RFC 8259 with a limit on nesting. A whole number within 64 bits, signed or unsigned,
is an integer; any other number is a binary64 number computed from the longest run of its digits
that fits 64 bits. A refusal says what is wrong, and how much of the text had not been read when it
was noticed.

Some values are written well and still cannot be taken: a number beyond the largest binary64 number,
half of a pair of surrogates, too deep a nesting. The strict manner refuses them; the lenient manner
reads on, and leaves it to whoever wants the value to refuse it.
-/

namespace DurableWorkflow.Json

/-!
## What is wrong with a JSON text

A fault is a flaw and the place where it was noticed, counted in bytes from the end of the text. The
message gives the place as a line and a column, both of the last byte that had been read.
-/

inductive Flaw where
  | endInList | endInObject | endInString | endInValue
  | colonExpected | listEndExpected | objectEndExpected
  | valueExpected | wordExpected | nameExpected
  | badEscape | badNumber | numberTooLarge | controlCharacter
  /-- Half of a pair of surrogates. -/
  | loneSurrogate | surrogateExpected
  | trailingComma | trailingText | tooDeep
  deriving DecidableEq, Repr

def Flaw.text : Flaw → String
  | endInList => "EOF while parsing a list"
  | endInObject => "EOF while parsing an object"
  | endInString => "EOF while parsing a string"
  | endInValue => "EOF while parsing a value"
  | colonExpected => "expected `:`"
  | listEndExpected => "expected `,` or `]`"
  | objectEndExpected => "expected `,` or `\x7d`"
  | valueExpected => "expected value"
  | wordExpected => "expected ident"
  | nameExpected => "key must be a string"
  | badEscape => "invalid escape"
  | badNumber => "invalid number"
  | numberTooLarge => "number out of range"
  | controlCharacter => "control character (\\u0000-\\u001F) found while parsing a string"
  | loneSurrogate => "lone leading surrogate in hex escape"
  | surrogateExpected => "unexpected end of hex escape"
  | trailingComma => "trailing comma"
  | trailingText => "trailing characters"
  | tooDeep => "recursion limit exceeded"

structure Fault where
  flaw : Flaw
  /-- How many bytes had not been read. -/
  left : Nat
  deriving DecidableEq, Repr

/-- The length of the characters in bytes. -/
def bytes (cs : List Char) : Nat := cs.foldl (fun n c => n + c.utf8Size) 0

namespace Fault

/-- A flaw that is noticed before these characters are read. -/
def before (flaw : Flaw) (rest : List Char) : Fault := ⟨flaw, bytes rest⟩

/-- A flaw in the first byte of these characters. -/
def atNext (flaw : Flaw) (rest : List Char) : Fault := ⟨flaw, bytes rest - 1⟩

/-- The line and the column of the last byte read; a line break is column 0 of the next line. -/
def position (s : String) (left : Nat) : Nat × Nat :=
  let bs := s.toUTF8.data.toList
  let read := bs.take (bs.length - left)
  (read.count 10 + 1, (read.reverse.takeWhile (· != 10)).length)

def message (f : Fault) (s : String) : String :=
  let (line, column) := position s f.left
  f.flaw.text ++ " at line " ++ toString line ++ " column " ++ toString column

end Fault

/-! ## The reader -/

/-- Deepest nesting of arrays and objects that `parse` accepts. -/
def maxDepth : Nat := 127

/-- What is done about a value that cannot be taken. -/
inductive Manner where
  | strict | lenient
  deriving DecidableEq, Repr

/-- What was read and the characters after it, or what is wrong. -/
abbrev Reading (α : Type) := Except Fault (α × List Char)

def isSpace (c : Char) : Bool := c == ' ' || c == '\n' || c == '\t' || c == '\r'

def skipSpace (cs : List Char) : List Char := cs.dropWhile isSpace

/-- Four digits of base sixteen. -/
def readHex4 (cs : List Char) : Reading Nat :=
  match (cs.take 4).mapM Text.hexValue?, cs with
  | some [a, b, c, d], _ :: _ :: _ :: _ :: rest => .ok (((a * 16 + b) * 16 + c) * 16 + d, rest)
  | _, cs =>
    if bytes (cs.take 4) < 4 then .error ⟨.endInString, 0⟩ else .error ⟨.badEscape, bytes cs - 4⟩

/-- The escape that must follow the first of two surrogates, up to its digits. -/
def readSecondEscape (cs : List Char) : Except Fault (List Char) :=
  match cs with
  | [] | ['\\'] => .error ⟨.endInString, 0⟩
  | '\\' :: 'u' :: rest => .ok rest
  | '\\' :: rest => .error (.atNext .surrogateExpected rest)
  | cs => .error (.atNext .surrogateExpected cs)

/-- The character with the first half `n`, or the character `n`. -/
def readPair (n : Nat) (rest : List Char) : Except Fault (Char × List Char) := do
  if 0xd800 ≤ n && n < 0xdc00 then
    let (m, rest) ← readHex4 (← readSecondEscape rest)
    if 0xdc00 ≤ m && m < 0xe000 then
      return (Char.ofNat (0x10000 + (n - 0xd800) * 0x400 + (m - 0xdc00)), rest)
    throw (.before .loneSurrogate rest)
  if 0xdc00 ≤ n && n < 0xe000 then throw (.before .loneSurrogate rest)
  return (Char.ofNat n, rest)

/-- The character after `\u`; a pair of surrogates is one character, and half of a pair is none. -/
def readUnicode (manner : Manner) (cs : List Char) : Except Fault (Option Char × List Char) := do
  let (n, rest) ← readHex4 cs
  match readPair n rest, manner with
  | .ok (c, rest), _ => return (some c, rest)
  | .error fault, .strict => throw fault
  | .error _, .lenient => return (none, rest)

/-- The character that a backslash and this one stand for. -/
def unescape? (c : Char) : Option Char :=
  match c with
  | '"' | '\\' | '/' => some c
  | 'b' => some (Char.ofNat 0x08)
  | 'f' => some (Char.ofNat 0x0c)
  | 'n' => some '\n'
  | 'r' => some '\r'
  | 't' => some '\t'
  | _ => none

/-- The characters up to the closing quotation mark, and what follows it; `acc` is what has been
read, backwards, or nothing if it cannot be taken. -/
def readString (manner : Manner) : Nat → Option (List Char) → List Char → Reading (Option String)
  | 0, _, _ => .error ⟨.tooDeep, 0⟩
  | fuel + 1, acc, cs =>
    match cs with
    | '"' :: rest => .ok (acc.map fun acc => String.ofList acc.reverse, rest)
    | '\\' :: 'u' :: rest =>
      match readUnicode manner rest with
      | .error fault => .error fault
      | .ok (c, rest) => readString manner fuel (do some ((← c) :: (← acc))) rest
    | '\\' :: c :: rest =>
      match unescape? c with
      | some d => readString manner fuel (acc.map (d :: ·)) rest
      | none => .error (.atNext .badEscape (c :: rest))
    | '\\' :: [] | [] => .error ⟨.endInString, 0⟩
    | c :: rest =>
      if c.toNat < 0x20 then .error (.atNext .controlCharacter cs)
      else readString manner fuel (acc.map (c :: ·)) rest

/-- The longest prefix of digits whose value fits 64 bits: its value and the digits left over. -/
def fitDigits (n : Nat) : List Char → Nat × List Char
  | [] => (n, [])
  | d :: ds =>
    let m := 10 * n + (d.toNat - '0'.toNat)
    if m < twoTo 64 then fitDigits m ds else (n, d :: ds)

/-- `± digits · 10 ^ exponent` computed in steps of at most `1e308`, each of them rounded; nothing
when the result is beyond the largest number. -/
def stepwiseDecimal : Nat → Binary64 → Int → Option Binary64
  | 0, x, _ => some x
  | fuel + 1, x, exponent =>
    let power := fun (n : Nat) => Binary64.ofDecimal false 1 n
    if exponent.natAbs ≤ 308 then
      if exponent ≥ 0 then
        let y := x.mul (power exponent.natAbs)
        if y.isFinite then some y else none
      else some (x.div (power exponent.natAbs))
    else if x.le Binary64.zero then some x
    else if exponent ≥ 0 then none
    else stepwiseDecimal fuel (x.div (power 308)) (exponent + 308)

/-- The largest exponent; an exponent without a sign that is larger is beyond range. -/
def maxPower : Nat := twoTo 31 - 1

/-- What follows the digit with which the number that begins with `n` passes `maxPower`. -/
def pastMaxPower (n : Nat) : List Char → List Char
  | [] => []
  | d :: ds =>
    let m := 10 * n + (d.toNat - '0'.toNat)
    if m > maxPower then ds else pastMaxPower m ds

/-- The optional exponent after the digits of a number; `none` inside for no exponent. One that is
too large is refused where the strict manner reads a number that is not zero. -/
def readPower (manner : Manner) (isZero : Bool) (cs : List Char) : Reading (Option Int) :=
  match cs with
  | c :: cs =>
    if c == 'e' || c == 'E' then
      let (negative, cs) := match cs with
        | '-' :: r => (true, r)
        | '+' :: r => (false, r)
        | r => (false, r)
      let ds := cs.takeWhile Char.isDigit
      let n := Text.digitsValue ds
      if cs.isEmpty then .error ⟨.endInValue, 0⟩
      else if ds.isEmpty then .error (.atNext .badNumber cs)
      else if manner = .strict && !isZero && !negative && n > maxPower then
        .error (.before .numberTooLarge (pastMaxPower 0 cs))
      else .ok (some (if negative then -(n : Int) else n), cs.dropWhile Char.isDigit)
    else .ok (none, c :: cs)
  | [] => .ok (none, [])

/-- The number with these digits before and after the point. -/
def decimalNumber (negative : Bool) (whole fraction : List Char) (power : Int) : Option Json :=
  let (n, excess) := fitDigits 0 whole
  let (n, left) := fitDigits n fraction
  let used := fraction.length - left.length
  let exponent : Int := excess.length - used
  let power : Int :=
    if power > maxPower then power else max (-maxPower - 1) (min maxPower (exponent + power))
  if power > maxPower then
    if n = 0 then some (.float (Binary64.ofRatio negative 0 1)) else none
  else if power < -100000 then some (.float (Binary64.ofRatio negative 0 1))
  else
    (stepwiseDecimal 1000 (Binary64.ofNat n) power).map fun x =>
      .float (if negative then x.neg else x)

/-- The digits before the point; a zero stands alone. -/
def readWhole (cs : List Char) : Reading (List Char) :=
  match cs with
  | [] => .error ⟨.endInValue, 0⟩
  | '0' :: rest =>
    if (rest.head?.map Char.isDigit).getD false then .error (.atNext .badNumber rest)
    else .ok (['0'], rest)
  | cs =>
    let ds := cs.takeWhile Char.isDigit
    if ds.isEmpty then .error (.atNext .badNumber cs) else .ok (ds, cs.dropWhile Char.isDigit)

/-- The optional point and the digits after it, at least one. -/
def readFraction (cs : List Char) : Reading (Option (List Char)) :=
  match cs with
  | '.' :: rest =>
    let ds := rest.takeWhile Char.isDigit
    if rest.isEmpty then .error ⟨.endInValue, 0⟩
    else if ds.isEmpty then .error (.atNext .badNumber rest)
    else .ok (some ds, rest.dropWhile Char.isDigit)
  | cs => .ok (none, cs)

/-- Read a number. -/
def readNumber (manner : Manner) (cs : List Char) : Except Fault (Json × List Char) := do
  let (negative, cs) := match cs with
    | '-' :: r => (true, r)
    | r => (false, r)
  let (whole, rest) ← readWhole cs
  let (fraction, rest) ← readFraction rest
  let isZero := (whole ++ fraction.getD []).all (· == '0')
  let (power, rest) ← readPower manner isZero rest
  let n := Text.digitsValue whole
  if fraction.isNone && power.isNone then
    if !negative && n < twoTo 64 then return (.int n, rest)
    if negative && 0 < n && n ≤ twoTo 63 then return (.int (-(n : Int)), rest)
  match decimalNumber negative whole (fraction.getD []) (power.getD 0), manner with
  | some j, _ => return (j, rest)
  | none, .strict => throw (.before .numberTooLarge rest)
  | none, .lenient => return (.unreadable, rest)

/-- Take the rest of a word off the front. -/
def readWord (value : Json) : List Char → List Char → Reading Json
  | [], rest => .ok (value, rest)
  | _ :: _, [] => .error ⟨.endInValue, 0⟩
  | w :: ws, c :: cs =>
    if w = c then readWord value ws cs else .error (.atNext .wordExpected (c :: cs))

/-- The colon after the name of a member. -/
def readColon (cs : List Char) : Except Fault (List Char) :=
  match skipSpace cs with
  | ':' :: rest => .ok rest
  | [] => .error ⟨.endInObject, 0⟩
  | cs => .error (.atNext .colonExpected cs)

/-- What comes after a value in an array: a further item, or the end. -/
def readItemEnd (cs : List Char) : Reading Bool :=
  match skipSpace cs with
  | ']' :: rest => .ok (false, rest)
  | ',' :: rest =>
    match skipSpace rest with
    | ']' :: _ => .error (.atNext .trailingComma (skipSpace rest))
    | rest => .ok (true, rest)
  | [] => .error ⟨.endInList, 0⟩
  | cs => .error (.atNext .listEndExpected cs)

/-- What comes after a value in an object: a further member, or the end. -/
def readMemberEnd (cs : List Char) : Reading Bool :=
  match skipSpace cs with
  | '\x7d' :: rest => .ok (false, rest)
  | ',' :: rest =>
    match skipSpace rest with
    | '\x7d' :: _ => .error (.atNext .trailingComma (skipSpace rest))
    | [] => .error ⟨.endInValue, 0⟩
    | rest => .ok (true, rest)
  | [] => .error ⟨.endInObject, 0⟩
  | cs => .error (.atNext .objectEndExpected cs)

/-- An object, if the names of its members could be read. -/
def objectOf (members : List (Option String × Json)) : Json :=
  match members.mapM fun (name, j) => name.map fun name => (name, j) with
  | some members => .obj members
  | none => .unreadable

/-- An array or an object inside which others may nest `depth - 1` deep. -/
def nested (depth : Nat) (j : Json) : Json := if depth = 0 then .unreadable else j

mutual

/-- Read a value; `depth` is how much deeper arrays and objects may nest. -/
def readValue (manner : Manner) : Nat → Nat → List Char → Reading Json
  | 0, _, _ => .error ⟨.tooDeep, 0⟩
  | fuel + 1, depth, cs =>
    match skipSpace cs with
    | [] => .error ⟨.endInValue, 0⟩
    | '"' :: rest =>
      (readString manner fuel (some []) rest).map fun (s, rest) =>
        ((s.map Json.str).getD .unreadable, rest)
    | '[' :: rest =>
      if depth = 0 && manner = .strict then .error (.atNext .tooDeep ('[' :: rest))
      else
        match skipSpace rest with
        | [] => .error ⟨.endInList, 0⟩
        | ']' :: rest => .ok (nested depth (.arr []), rest)
        | rest => (readItems manner fuel (depth - 1) rest).map fun (items, rest) =>
          (nested depth (.arr items), rest)
    | '\x7b' :: rest =>
      if depth = 0 && manner = .strict then .error (.atNext .tooDeep ('\x7b' :: rest))
      else
        match skipSpace rest with
        | [] => .error ⟨.endInObject, 0⟩
        | '\x7d' :: rest => .ok (nested depth (.obj []), rest)
        | rest => (readMembers manner fuel (depth - 1) rest).map fun (members, rest) =>
          (nested depth (objectOf members), rest)
    | 'n' :: rest => readWord .null "ull".toList rest
    | 't' :: rest => readWord (.bool true) "rue".toList rest
    | 'f' :: rest => readWord (.bool false) "alse".toList rest
    | c :: rest =>
      if c == '-' || c.isDigit then readNumber manner (c :: rest)
      else .error (.atNext .valueExpected (c :: rest))

/-- Read the rest of an array that has at least one more item. -/
def readItems (manner : Manner) : Nat → Nat → List Char → Reading (List Json)
  | 0, _, _ => .error ⟨.tooDeep, 0⟩
  | fuel + 1, depth, cs =>
    match readValue manner fuel depth cs with
    | .error fault => .error fault
    | .ok (j, rest) =>
      match readItemEnd rest with
      | .error fault => .error fault
      | .ok (false, rest) => .ok ([j], rest)
      | .ok (true, rest) =>
        (readItems manner fuel depth rest).map fun (js, rest) => (j :: js, rest)

/-- Read the rest of an object that has at least one more member. -/
def readMembers (manner : Manner) :
    Nat → Nat → List Char → Reading (List (Option String × Json))
  | 0, _, _ => .error ⟨.tooDeep, 0⟩
  | fuel + 1, depth, cs =>
    match cs with
    | '"' :: rest =>
      match readString manner fuel (some []) rest with
      | .error fault => .error fault
      | .ok (name, rest) =>
        match readColon rest with
        | .error fault => .error fault
        | .ok rest =>
          match readValue manner fuel depth rest with
          | .error fault => .error fault
          | .ok (j, rest) =>
            match readMemberEnd rest with
            | .error fault => .error fault
            | .ok (false, rest) => .ok ([(name, j)], rest)
            | .ok (true, rest) =>
              (readMembers manner fuel depth rest).map fun (ms, rest) => ((name, j) :: ms, rest)
    | cs => .error (.atNext .nameExpected cs)

end

/-- Read the whole text as one value that nests at most `depth` deep. -/
def parseWithin (manner : Manner) (depth : Nat) (s : String) : Except Fault Json := do
  let cs := s.toList
  let (j, rest) ← readValue manner (2 * cs.length + 2) depth cs
  match skipSpace rest with
  | [] => return j
  | rest => throw (.atNext .trailingText rest)

/-- Read the whole text as one value. -/
def parse (s : String) : Except Fault Json := parseWithin .strict maxDepth s

/-- Read the whole text as what `f` makes of it. What `f` ignores need only be written well. -/
def parseAs? (f : Json → Option α) (s : String) : Option α :=
  (parseWithin .lenient maxDepth s).toOption.bind f

end DurableWorkflow.Json
