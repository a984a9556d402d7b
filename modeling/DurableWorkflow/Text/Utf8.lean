/-!
# UTF-8

Bytes are taken apart into characters and what makes no character: bytes after which none can come
about, and a character that is cut off by the end.
-/

namespace DurableWorkflow.Text.Utf8

inductive Piece where
  | char (c : Char)
  /-- So many bytes begin no character. -/
  | broken (length : Nat)
  /-- The last bytes, so many of them, only begin a character. -/
  | cut (length : Nat)
  deriving DecidableEq, Repr

/-- A character of which some bytes have been taken: the bits of these, how many bytes are to come,
and what the next of them may be. -/
structure Pending where
  taken : Nat := 1
  bits : Nat
  owed : Nat
  low : Nat := 0x80
  high : Nat := 0xbf
  deriving DecidableEq, Repr

/-- Take the first byte of a character. -/
def start (b : Nat) : List Piece × Option Pending :=
  if b < 0x80 then ([.char (Char.ofNat b)], none)
  else if 0xc2 ≤ b && b < 0xe0 then ([], some { bits := b - 0xc0, owed := 1 })
  else if 0xe0 ≤ b && b < 0xf0 then
    -- three bytes for what needs no fewer and is no surrogate
    ([], some {
      bits := b - 0xe0, owed := 2
      low := if b = 0xe0 then 0xa0 else 0x80
      high := if b = 0xed then 0x9f else 0xbf })
  else if 0xf0 ≤ b && b < 0xf5 then
    ([], some {
      bits := b - 0xf0, owed := 3
      low := if b = 0xf0 then 0x90 else 0x80
      high := if b = 0xf4 then 0x8f else 0xbf })
  else ([.broken 1], none)

/-- Take one more byte. -/
def Pending.next (p : Pending) (b : Nat) : List Piece × Option Pending :=
  if p.low ≤ b && b ≤ p.high then
    let bits := 64 * p.bits + (b - 0x80)
    if p.owed = 1 then ([.char (Char.ofNat bits)], none)
    else ([], some { taken := p.taken + 1, bits, owed := p.owed - 1 })
  else
    let (pieces, p') := start b
    (.broken p.taken :: pieces, p')

/-- The pieces of bytes, of which `p` have been taken. -/
def piecesFrom : Option Pending → List UInt8 → List Piece
  | none, [] => []
  | some p, [] => [.cut p.taken]
  | p, b :: bs =>
    let (pieces, p) := match p with
      | none => start b.toNat
      | some p => p.next b.toNat
    pieces ++ piecesFrom p bs

def pieces (bs : List UInt8) : List Piece := piecesFrom none bs

/-- Why bytes are no text. -/
inductive Fault where
  | invalid (length index : Nat)
  | incomplete (index : Nat)
  deriving DecidableEq, Repr

def Fault.message : Fault → String
  | invalid length index =>
    "invalid utf-8 sequence of " ++ toString length ++ " bytes from index " ++ toString index
  | incomplete index => "incomplete utf-8 byte sequence from index " ++ toString index

/-- The characters of the pieces, of which the first begins at `index`. -/
def charsOf (index : Nat) : List Piece → Except Fault (List Char)
  | [] => .ok []
  | .char c :: ps => (charsOf (index + c.utf8Size) ps).map (c :: ·)
  | .broken length :: _ => .error (.invalid length index)
  | .cut _ :: _ => .error (.incomplete index)

/-- The text that the bytes are. -/
def decode (bs : List UInt8) : Except Fault String := (charsOf 0 (pieces bs)).map String.ofList

/-- The text of the bytes, with a mark in the place of what is no character. -/
def decodeMarked (bs : List UInt8) : String :=
  String.ofList ((pieces bs).map fun
    | .char c => c
    | _ => Char.ofNat 0xfffd)

end DurableWorkflow.Text.Utf8
