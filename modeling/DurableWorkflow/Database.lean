import DurableWorkflow.Text.Digits
import DurableWorkflow.Text.Printable
import DurableWorkflow.Text.Utf8

/-!
# Addresses of databases

An address is the name of a file, in which bytes may be written as `%` and two digits, and
parameters after a question mark, written like those of a form. The whole address is checked before
anything is opened.
-/

namespace DurableWorkflow

/-- Where instances are stored. -/
inductive Database where
  /-- Nowhere: it begins empty, and is lost in the end. -/
  | memory
  | file (path : String)
  deriving DecidableEq, Repr, Inhabited

namespace Database

/-- Why a text is no address. -/
inductive Fault where
  | notText (f : Text.Utf8.Fault)
  | unknownValue (value parameter : String)
  | unknownParameter (name : String)
  deriving DecidableEq, Repr

def Fault.message : Fault → String
  | notText f => f.message
  | unknownValue value parameter =>
    "unknown value " ++ Text.quotedText value ++ " for `" ++ parameter ++ "`"
  | unknownParameter name => "unknown query parameter `" ++ name ++ "` while parsing connection URL"

/-- The byte that two digits of base sixteen stand for. -/
def byteOf? (a b : UInt8) : Option UInt8 := do
  let high ← Text.hexValue? (Char.ofNat a.toNat)
  let low ← Text.hexValue? (Char.ofNat b.toNat)
  some (UInt8.ofNat (16 * high + low))

/-- The bytes with `%` and two digits in the place of one of them. -/
def percentDecoded : List UInt8 → List UInt8
  | b :: x :: y :: rest =>
    match if b = 37 then byteOf? x y else none with
    | some c => c :: percentDecoded rest
    | none => b :: percentDecoded (x :: y :: rest)
  | b :: rest => b :: percentDecoded rest
  | [] => []

def bytesOf (s : String) : List UInt8 := s.toUTF8.data.toList

/-- The name or the value of a parameter, where `+` stands for a blank. -/
def formDecoded (cs : List Char) : String :=
  let plain := String.ofList (cs.map fun c => if c = '+' then ' ' else c)
  Text.Utf8.decodeMarked (percentDecoded (bytesOf plain))

/-- The parameters with their values, in order. -/
def parameters (s : String) : List (String × String) :=
  ((s.splitOn "&").filter (!·.isEmpty)).map fun p =>
    (formDecoded (p.toList.takeWhile (· != '=')),
      formDecoded ((p.toList.dropWhile (· != '=')).drop 1))

/-- The values that a parameter may have. -/
def valuesOf : List (String × List String) :=
  [("mode", ["ro", "rw", "rwc", "memory"]), ("cache", ["private", "shared"]),
    ("immutable", ["true", "1", "false", "0"])]

def checkParameter (name value : String) : Except Fault Unit :=
  match valuesOf.find? (·.1 == name) with
  | some (_, values) =>
    if values.contains value then .ok () else .error (.unknownValue value name)
  | none => if name = "vfs" then .ok () else .error (.unknownParameter name)

/-- Take `start` off the front as often as it stands there, at most `fuel` times. -/
def trimStart (start : List Char) : Nat → List Char → List Char
  | 0, cs => cs
  | fuel + 1, cs =>
    if start.isPrefixOf cs then trimStart start fuel (cs.drop start.length) else cs

/-- The database that an address names. -/
def ofUrl (url : String) : Except Fault Database := do
  let cs := url.toList
  let cs := trimStart "sqlite://".toList cs.length cs
  let cs := trimStart "sqlite:".toList cs.length cs
  let name := String.ofList (cs.takeWhile (· != '?'))
  let path ← match Text.Utf8.decode (percentDecoded (bytesOf name)) with
    | .ok path => pure path
    | .error f => throw (.notText f)
  let given := parameters (String.ofList ((cs.dropWhile (· != '?')).drop 1))
  given.forM fun p => checkParameter p.1 p.2
  return if name = ":memory:" || given.contains ("mode", "memory") then .memory else .file path

end Database

end DurableWorkflow
