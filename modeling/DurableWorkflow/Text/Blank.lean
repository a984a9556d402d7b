/-!
# Blank characters

The characters with the Unicode property `White_Space`, and trimming by them.
-/

namespace DurableWorkflow.Text

/-- The characters with the Unicode property `White_Space`. -/
def isBlank (c : Char) : Bool :=
  let n := c.toNat
  (0x09 ≤ n && n ≤ 0x0d) || n == 0x20 || n == 0x85 || n == 0xa0 || n == 0x1680
    || (0x2000 ≤ n && n ≤ 0x200a) || n == 0x2028 || n == 0x2029 || n == 0x202f || n == 0x205f
    || n == 0x3000

theorem isBlank_of_isWhitespace {c : Char} (h : c.isWhitespace = true) : isBlank c = true := by
  simp only [Char.isWhitespace, Bool.or_eq_true, decide_eq_true_eq] at h
  rcases h with ((h | h) | h) | h <;> subst h <;> decide

/-- The characters without the blanks at their start. -/
def skipBlanks (cs : List Char) : List Char := cs.dropWhile isBlank

/-- The characters without the blanks at either end. -/
def trim (cs : List Char) : List Char := (skipBlanks (skipBlanks cs).reverse).reverse

/-- The text without the blanks at either end. -/
def trimmed (s : String) : String := String.ofList (trim s.toList)

/-- Is there nothing but blanks? -/
def isBlankText (s : String) : Bool := s.toList.all isBlank

/-- Does the text contain `part`? -/
def contains (s part : String) : Bool := go part.toList s.toList
where
  go (part : List Char) : List Char → Bool
    | [] => part.isEmpty
    | c :: cs => part.isPrefixOf (c :: cs) || go part cs

end DurableWorkflow.Text
