/-
  Workflows.Text.Quoted — texts as they are quoted in complaints.

  A quoted text shows every character that a reader can see. The quote, the backslash and four
  controls are escaped by a letter or digit; other controls, blanks that are not the space,
  invisible and private characters, and marks that would join the character before are
  escaped by their number.
-/
namespace Workflows.Text

/-- The characters from U+0080 on that are escaped by their number, as far as they are
controls, blanks, invisible, private or no characters, or marks of the scripts of Europe and
the Near East and of symbols. -/
def unseen : List (Nat × Nat) :=
  [(0x80, 0xA0), (0xAD, 0xAD), (0x300, 0x36F), (0x483, 0x489), (0x591, 0x5BD), (0x5BF, 0x5BF),
    (0x5C1, 0x5C2), (0x5C4, 0x5C5), (0x5C7, 0x5C7), (0x600, 0x605), (0x610, 0x61A),
    (0x61C, 0x61C), (0x64B, 0x65F), (0x670, 0x670), (0x6D6, 0x6DD), (0x6DF, 0x6E4),
    (0x6E7, 0x6E8), (0x6EA, 0x6ED), (0x70F, 0x70F), (0x890, 0x891), (0x8E2, 0x8E2),
    (0x1680, 0x1680), (0x180E, 0x180E), (0x1AB0, 0x1ACE), (0x1DC0, 0x1DFF), (0x2000, 0x200F),
    (0x2028, 0x202F), (0x205F, 0x206F), (0x20D0, 0x20F0), (0x3000, 0x3000), (0x3099, 0x309A),
    (0xE000, 0xF8FF), (0xFE00, 0xFE0F), (0xFE20, 0xFE2F), (0xFEFF, 0xFEFF), (0xFFF0, 0xFFFB),
    (0xFFFE, 0xFFFF), (0x110BD, 0x110BD), (0x110CD, 0x110CD), (0x13430, 0x13438),
    (0x1BCA0, 0x1BCA3), (0x1D173, 0x1D17A), (0xE0000, 0x10FFFF)]

def isUnseen (c : Char) : Bool :=
  let n := c.toNat
  n < 32 || n = 127 || unseen.any (fun (first, last) => first ≤ n && n ≤ last)

/-- A character inside quotes. -/
def quotedChar (c : Char) : List Char :=
  if c = '"' then ['\\', '"']
  else if c = '\\' then ['\\', '\\']
  else if c = '\n' then ['\\', 'n']
  else if c = '\r' then ['\\', 'r']
  else if c = '\t' then ['\\', 't']
  else if c.toNat = 0 then ['\\', '0']
  else if isUnseen c then "\\u\x7b".toList ++ Nat.toDigits 16 c.toNat ++ ['}']
  else [c]

/-- The text in quotes. -/
def quoted (s : String) : String := String.ofList ('"' :: s.toList.flatMap quotedChar ++ ['"'])

end Workflows.Text
