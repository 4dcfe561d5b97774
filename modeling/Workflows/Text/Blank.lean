/-
  Workflows.Text.Blank — the blank characters of Unicode (White_Space) and trimming by them.
-/
namespace Workflows.Text

/-- The characters of the property White_Space. -/
def isSpace (c : Char) : Bool :=
  let n := c.toNat
  (9 ≤ n && n ≤ 13) || n = 0x20 || n = 0x85 || n = 0xA0 || n = 0x1680 || (0x2000 ≤ n && n ≤ 0x200A)
    || n = 0x2028 || n = 0x2029 || n = 0x202F || n = 0x205F || n = 0x3000

def trimStart (cs : List Char) : List Char := cs.dropWhile isSpace

def trimEnd (cs : List Char) : List Char := (cs.reverse.dropWhile isSpace).reverse

/-- The text without the blanks at its two ends. -/
def trim (s : String) : String := String.ofList (trimEnd (trimStart s.toList))

/-- Whether a text has blanks only, or nothing at all. -/
def isBlank (s : String) : Bool := s.toList.all isSpace

end Workflows.Text
