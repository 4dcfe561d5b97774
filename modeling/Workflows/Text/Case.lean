/-
  Workflows.Text.Case — upper case, as far as it stays within ASCII.
-/
namespace Workflows.Text

/-- The upper case of a character: ASCII letters, and the few other characters whose upper case
is made of ASCII letters alone. Every other character stands for itself. -/
def upperChars (c : Char) : List Char :=
  match c.toNat with
  | 0xDF => ['S', 'S']
  | 0x131 => ['I']
  | 0x17F => ['S']
  | 0xFB00 => ['F', 'F']
  | 0xFB01 => ['F', 'I']
  | 0xFB02 => ['F', 'L']
  | 0xFB03 => ['F', 'F', 'I']
  | 0xFB04 => ['F', 'F', 'L']
  | 0xFB05 => ['S', 'T']
  | 0xFB06 => ['S', 'T']
  | _ => [c.toUpper]

def toUpper (s : String) : String := String.ofList (s.toList.flatMap upperChars)

/-- Lower case of the ASCII letters. -/
def toLower (s : String) : String := String.ofList (s.toList.map Char.toLower)

end Workflows.Text
