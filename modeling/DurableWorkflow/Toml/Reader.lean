import DurableWorkflow.Number.Decimal
import DurableWorkflow.Number.Power
import DurableWorkflow.Time.Timestamp
import DurableWorkflow.Toml.Document

/-!
# Reading TOML

TOML 1.0: a document is read line by line into its tables. Integers have 64 bits. A date or a time
is kept as an object with its text, since nothing here uses one.
-/

namespace DurableWorkflow.Toml

/-- Deepest nesting of arrays and inline tables, and most parts of a dotted key, less one. -/
def nestingLimit : Nat := 80

abbrev Reader (α : Type) := List Char → Option (α × List Char)

def isSpace (c : Char) : Bool := c == ' ' || c == '\t'

def skipSpace (cs : List Char) : List Char := cs.dropWhile isSpace

/-- A line end off the front. -/
def newline? : List Char → Option (List Char)
  | '\n' :: r => some r
  | '\r' :: '\n' :: r => some r
  | _ => none

/-- No control character other than the tab. -/
def isPlain (c : Char) : Bool := c == '\t' || (c.toNat ≥ 0x20 && c.toNat != 0x7f)

/-- Blanks and a comment off the front. -/
def skipComment (cs : List Char) : List Char :=
  match skipSpace cs with
  | '#' :: r => r.dropWhile isPlain
  | r => r

/-- Blanks, comments and line ends off the front. -/
def skipLines : Nat → List Char → List Char
  | 0, cs => cs
  | fuel + 1, cs =>
    let r := skipComment cs
    match newline? r with
    | some r => skipLines fuel r
    | none => r

/-- The rest of a line after its content. -/
def endLine (cs : List Char) : Option (List Char) :=
  match skipComment cs with
  | [] => some []
  | r => newline? r

/-! ## Strings -/

/-- `count` digits of base sixteen that name a character. -/
def readCodePoint (count : Nat) (cs : List Char) : Option (Char × List Char) := do
  let ds := cs.take count
  if ds.length != count then none
  let vs ← ds.mapM Text.hexValue?
  let n := vs.foldl (fun n d => 16 * n + d) 0
  if n < 0xd800 || (0xe000 ≤ n && n < 0x110000) then some (Char.ofNat n, cs.drop count) else none

/-- The character after a backslash. -/
def readEscape : Reader Char
  | 'b' :: r => some (Char.ofNat 0x08, r)
  | 't' :: r => some ('\t', r)
  | 'n' :: r => some ('\n', r)
  | 'f' :: r => some (Char.ofNat 0x0c, r)
  | 'r' :: r => some ('\r', r)
  | '"' :: r => some ('"', r)
  | '\\' :: r => some ('\\', r)
  | 'u' :: r => readCodePoint 4 r
  | 'U' :: r => readCodePoint 8 r
  | _ => none

/-- The rest of a basic string. -/
def readBasic : Nat → List Char → Reader String
  | 0, _, _ => none
  | fuel + 1, acc, cs =>
    match cs with
    | '"' :: r => some (String.ofList acc.reverse, r)
    | '\\' :: r =>
      match readEscape r with
      | some (c, r) => readBasic fuel (c :: acc) r
      | none => none
    | c :: r => if isPlain c then readBasic fuel (c :: acc) r else none
    | [] => none

/-- The rest of a literal string. -/
def readLiteral (cs : List Char) : Option (String × List Char) :=
  let body := cs.takeWhile fun c => isPlain c && c != '\''
  match cs.drop body.length with
  | '\'' :: r => some (String.ofList body, r)
  | _ => none

/-- Blanks and line ends off the front. -/
def skipBlankLines : Nat → List Char → List Char
  | 0, cs => cs
  | fuel + 1, cs =>
    let r := skipSpace cs
    match newline? r with
    | some r => skipBlankLines fuel r
    | none => r

/-- At the quotes that end a multi-line string: up to two of them before the last three are part
of it. -/
def closeQuotes (q : Char) (acc cs : List Char) : Option (String × List Char) :=
  let n := (cs.takeWhile (· == q)).length
  if n < 3 then none
  else
    let k := min (n - 3) 2
    some (String.ofList (acc.reverse ++ List.replicate k q), cs.drop (k + 3))

/-- The rest of a multi-line basic string. -/
def readMultiBasic : Nat → List Char → Reader String
  | 0, _, _ => none
  | fuel + 1, acc, cs =>
    match cs with
    | '"' :: r =>
      match closeQuotes '"' acc cs with
      | some done => some done
      | none => readMultiBasic fuel ('"' :: acc) r
    | '\\' :: r =>
      match readEscape r with
      | some (c, r) => readMultiBasic fuel (c :: acc) r
      | none =>
        match newline? (skipSpace r) with
        | some r => readMultiBasic fuel acc (skipBlankLines r.length r)
        | none => none
    | c :: r =>
      match newline? cs with
      | some rest => readMultiBasic fuel ('\n' :: acc) rest
      | none => if isPlain c then readMultiBasic fuel (c :: acc) r else none
    | [] => none

/-- The rest of a multi-line literal string. -/
def readMultiLiteral : Nat → List Char → Reader String
  | 0, _, _ => none
  | fuel + 1, acc, cs =>
    match cs with
    | '\'' :: r =>
      match closeQuotes '\'' acc cs with
      | some done => some done
      | none => readMultiLiteral fuel ('\'' :: acc) r
    | c :: r =>
      match newline? cs with
      | some rest => readMultiLiteral fuel ('\n' :: acc) rest
      | none => if isPlain c then readMultiLiteral fuel (c :: acc) r else none
    | [] => none

/-- A string of any of the four kinds. -/
def readString (cs : List Char) : Option (String × List Char) :=
  let inner := fun r => (newline? r).getD r
  match cs with
  | '"' :: '"' :: '"' :: r => readMultiBasic (r.length + 1) [] (inner r)
  | '\'' :: '\'' :: '\'' :: r => readMultiLiteral (r.length + 1) [] (inner r)
  | '"' :: r => readBasic (r.length + 1) [] r
  | '\'' :: r => readLiteral r
  | _ => none

/-! ## Keys -/

def isBare (c : Char) : Bool := c.isAlphanum || c == '_' || c == '-'

def readSimpleKey (cs : List Char) : Option (String × List Char) :=
  match cs with
  | '"' :: r => readBasic (r.length + 1) [] r
  | '\'' :: r => readLiteral r
  | cs =>
    let word := cs.takeWhile isBare
    if word.isEmpty then none else some (String.ofList word, cs.drop word.length)

/-- The parts of a dotted key. -/
def readKey : Nat → Reader (List String)
  | 0, _ => none
  | fuel + 1, cs =>
    match readSimpleKey (skipSpace cs) with
    | none => none
    | some (k, r) =>
      match skipSpace r with
      | '.' :: r => (readKey fuel r).map fun (ks, r) => (k :: ks, r)
      | r => some ([k], r)

/-- A key of few enough parts, split before its last one. -/
def readPath (cs : List Char) : Option ((List String × String) × List Char) := do
  let (ks, r) ← readKey (cs.length + 1) cs
  let last ← ks.getLast?
  if ks.length < nestingLimit then some ((ks.dropLast, last), r) else none

/-! ## Numbers, dates and times -/

/-- Digits accepted by `ok`, single underscores between them allowed. -/
def readDigits (ok : Char → Bool) : Nat → Reader (List Char)
  | 0, _ => none
  | fuel + 1, cs =>
    match cs with
    | c :: r =>
      if !ok c then none
      else
        match r with
        | '_' :: r' => (readDigits ok fuel r').map fun (ds, r) => (c :: ds, r)
        | d :: _ =>
          if ok d then (readDigits ok fuel r).map fun (ds, r) => (c :: ds, r) else some ([c], r)
        | [] => some ([c], [])
    | [] => none

def ofBase (base : Nat) (ds : List Char) : Nat :=
  ds.foldl (fun n c => base * n + (Text.hexValue? c).getD 0) 0

/-- A number after `0x`, `0o` or `0b`. -/
def readBased (base : Nat) (cs : List Char) : Option (Json × List Char) := do
  let ok := fun c => match Text.hexValue? c with
    | some v => v < base
    | none => false
  let (ds, r) ← readDigits ok (cs.length + 1) cs
  let n := ofBase base ds
  if n < twoTo 63 then some (.int n, r) else none

/-- The digits of a number before its point or exponent: a zero alone, or no zero in front. -/
def readWhole (cs : List Char) : Option (List Char × List Char) :=
  match cs with
  | '0' :: r => some (['0'], r)
  | cs => readDigits Char.isDigit (cs.length + 1) cs

/-- The optional fraction of a number, its digits. -/
def readFraction (cs : List Char) : Option (Option (List Char) × List Char) :=
  match cs with
  | '.' :: r => (readDigits Char.isDigit (r.length + 1) r).map fun (ds, r) => (some ds, r)
  | r => some (none, r)

/-- The optional exponent of a number. -/
def readPower (cs : List Char) : Option (Option (List Char) × List Char) :=
  match cs with
  | c :: r =>
    if c == 'e' || c == 'E' then
      let (sign, r) := match r with
        | '-' :: r => (['-'], r)
        | '+' :: r => ([], r)
        | r => ([], r)
      (readDigits Char.isDigit (r.length + 1) r).map fun (ds, r) => (some (sign ++ ds), r)
    else some (none, cs)
  | [] => some (none, [])

/-- A decimal number after its sign. -/
def readDecimal (negative : Bool) (cs : List Char) : Option (Json × List Char) := do
  let (whole, r) ← readWhole cs
  let (fraction, r) ← readFraction r
  let (power, r) ← readPower r
  match fraction, power with
  | none, none =>
    let n : Int := Text.digitsValue whole
    let n := if negative then -n else n
    if -(twoTo 63 : Int) ≤ n && n < twoTo 63 then some (.int n, r) else none
  | fraction, power =>
    let point := fraction.elim [] fun ds => '.' :: ds
    let x ← Binary64.readUnsigned negative (whole ++ point ++ power.elim [] fun ds => 'e' :: ds)
    if x = .infinite false then none else some (.float x, r)

/-- A number with an optional sign. -/
def readNumber (cs : List Char) : Option (Json × List Char) :=
  let word := fun (negative : Bool) (cs : List Char) =>
    if "inf".toList.isPrefixOf cs then some (Json.float (.infinite negative), cs.drop 3)
    else if "nan".toList.isPrefixOf cs then some (Json.float .nan, cs.drop 3)
    else readDecimal negative cs
  match cs with
  | '0' :: 'x' :: r => readBased 16 r
  | '0' :: 'o' :: r => readBased 8 r
  | '0' :: 'b' :: r => readBased 2 r
  | '-' :: r => word true r
  | '+' :: r => word false r
  | r => word false r

/-- Exactly `count` digits with a value between `lo` and `hi`. -/
def readField (count lo hi : Nat) (cs : List Char) : Option (Nat × List Char) :=
  let ds := cs.take count
  let n := Text.digitsValue ds
  if ds.length = count && ds.all Char.isDigit && lo ≤ n && n ≤ hi then some (n, cs.drop count)
  else none

def readMark (c : Char) : List Char → Option (List Char)
  | d :: r => if d = c then some r else none
  | [] => none

def readTime (cs : List Char) : Option (List Char) := do
  let (_, r) ← readField 2 0 23 cs
  let (_, r) ← readField 2 0 59 (← readMark ':' r)
  let (_, r) ← readField 2 0 60 (← readMark ':' r)
  match r with
  | '.' :: r =>
    let ds := r.takeWhile Char.isDigit
    if ds.isEmpty then none else some (r.drop ds.length)
  | r => some r

def readDate (cs : List Char) : Option (List Char) := do
  let (y, r) ← readField 4 0 9999 cs
  let (m, r) ← readField 2 1 12 (← readMark '-' r)
  let (_, r) ← readField 2 1 (Date.daysInMonth y m) (← readMark '-' r)
  some r

/-- An offset where there is one. -/
def readOffset (cs : List Char) : Option (List Char) :=
  match cs with
  | 'Z' :: r | 'z' :: r => some r
  | '+' :: r | '-' :: r => do
    let (_, r) ← readField 2 0 23 r
    let (_, r) ← readField 2 0 59 (← readMark ':' r)
    some r
  | r => some r

/-- A date, a time, or both, kept as an object with its text. -/
def readMoment (cs : List Char) : Option (Json × List Char) := do
  let timed := fun (r : List Char) => match r with
    | 'T' :: t | 't' :: t => (readTime t).bind readOffset
    | ' ' :: t =>
      match t with
      | a :: b :: ':' :: _ =>
        if a.isDigit && b.isDigit then (readTime t).bind readOffset else some r
      | _ => some r
    | r => some r
  let rest ← if cs[4]? == some '-' then (readDate cs).bind timed else readTime cs
  some (.obj [("moment", .str (String.ofList (cs.take (cs.length - rest.length))))], rest)

/-- Does a date or a time stand here? -/
def looksLikeMoment (cs : List Char) : Bool :=
  ((cs.take 4).all Char.isDigit && cs[4]? == some '-')
    || ((cs.take 2).all Char.isDigit && cs[2]? == some ':')

/-! ## Values -/

mutual

/-- Read a value; `depth` is how much deeper arrays and inline tables may nest. -/
def readValue : Nat → Nat → Reader Json
  | 0, _, _ => none
  | fuel + 1, depth, cs =>
    match cs with
    | [] => none
    | '"' :: _ | '\'' :: _ => (readString cs).map fun (s, r) => (.str s, r)
    | '[' :: r =>
      match depth with
      | 0 => none
      | depth + 1 => (readItems fuel depth r).map fun (js, r) => (.arr js, r)
    | '\x7b' :: r =>
      match depth with
      | 0 => none
      | depth + 1 =>
        match skipSpace r with
        | '\x7d' :: r => some (.obj [], r)
        | r => (readPairs fuel depth [] r).map fun (ms, r) => (.obj (membersJson ms), r)
    | 't' :: 'r' :: 'u' :: 'e' :: r => some (.bool true, r)
    | 'f' :: 'a' :: 'l' :: 's' :: 'e' :: r => some (.bool false, r)
    | cs => if looksLikeMoment cs then readMoment cs else readNumber cs

/-- The items of an array up to its end. -/
def readItems : Nat → Nat → Reader (List Json)
  | 0, _, _ => none
  | fuel + 1, depth, cs =>
    match skipLines cs.length cs with
    | ']' :: r => some ([], r)
    | r =>
      match readValue fuel depth r with
      | none => none
      | some (j, r) =>
        match skipLines r.length r with
        | ',' :: r => (readItems fuel depth r).map fun (js, r) => (j :: js, r)
        | ']' :: r => some ([j], r)
        | _ => none

/-- The pairs of an inline table up to its end, added to `ms`. -/
def readPairs : Nat → Nat → Members → Reader Members
  | 0, _, _, _ => none
  | fuel + 1, depth, ms, cs =>
    match readPath cs with
    | some ((path, name), '=' :: r) =>
      match readValue fuel depth (skipSpace r) with
      | none => none
      | some (j, r) =>
        match Members.define path name j ms with
        | none => none
        | some ms =>
          match skipSpace r with
          | ',' :: r => readPairs fuel depth ms r
          | '\x7d' :: r => some (ms, r)
          | _ => none
    | _ => none

end

/-! ## Documents -/

/-- The tables read so far and the header they are under. -/
structure State where
  header : List String := []
  members : Members := []

/-- Read one line that is not blank. -/
def readLine (s : State) (cs : List Char) : Option (State × List Char) :=
  match cs with
  | '[' :: '[' :: r => do
    let ((path, name), r) ← readPath r
    let r ← readMark ']' (← readMark ']' r)
    let ms ← s.members.openRow path name
    some ({ header := path ++ [name], members := ms }, ← endLine r)
  | '[' :: r => do
    let ((path, name), r) ← readPath r
    let r ← readMark ']' r
    let ms ← s.members.openTable path name
    some ({ header := path ++ [name], members := ms }, ← endLine r)
  | cs => do
    let ((path, name), r) ← readPath cs
    let r ← readMark '=' r
    let (j, r) ← readValue (2 * cs.length + 2) (nestingLimit - 1) (skipSpace r)
    let ms ← s.members.defineUnder s.header path name j
    some ({ s with members := ms }, ← endLine r)

def readLines : Nat → State → List Char → Option State
  | 0, _, _ => none
  | fuel + 1, s, cs =>
    match skipLines cs.length cs with
    | [] => some s
    | r =>
      match readLine s r with
      | some (s, r) => readLines fuel s r
      | none => none

/-- Read a document; a byte order mark in front of it is skipped. -/
def parse (text : String) : Option Json :=
  let cs := match text.toList with
    | '\ufeff' :: r => r
    | r => r
  (readLines (cs.length + 1) {} cs).map fun s => .obj (membersJson s.members)

end DurableWorkflow.Toml
