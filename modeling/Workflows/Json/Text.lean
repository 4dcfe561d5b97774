/-
  Workflows.Json.Text — the compact text of a JSON value.

  No space is written. A string escapes the quote, the backslash and the control characters
  below U+0020, five of them by a letter and the rest as `\u00xx`; all other characters stand
  for themselves. Doubles are written by `Binary64.text`, so that they read back as doubles; a
  double that is not finite has no text of its own and is written `null`.
-/
import Workflows.Json.Basic
namespace Workflows.Json

def hexDigit (n : Nat) : Char := if n < 10 then Char.ofNat (48 + n) else Char.ofNat (87 + n)

/-- How a character stands inside a quoted string. -/
def escapeChar (c : Char) : List Char :=
  if c = '"' then ['\\', '"']
  else if c = '\\' then ['\\', '\\']
  else if c = '\n' then ['\\', 'n']
  else if c = '\r' then ['\\', 'r']
  else if c = '\t' then ['\\', 't']
  else if c.toNat = 8 then ['\\', 'b']
  else if c.toNat = 12 then ['\\', 'f']
  else if c.toNat < 32 then ['\\', 'u', '0', '0', hexDigit (c.toNat / 16), hexDigit (c.toNat % 16)]
  else [c]

def quote (s : String) : List Char := '"' :: s.toList.flatMap escapeChar ++ ['"']

def integerChars (n : Int) : List Char :=
  if n < 0 then '-' :: Nat.toDigits 10 n.natAbs else Nat.toDigits 10 n.natAbs

mutual
/-- The compact text of a value, before `rest`. -/
def writeChars : Json → (rest : List Char) → List Char
  | .null, rest => 'n' :: 'u' :: 'l' :: 'l' :: rest
  | .bool true, rest => 't' :: 'r' :: 'u' :: 'e' :: rest
  | .bool false, rest => 'f' :: 'a' :: 'l' :: 's' :: 'e' :: rest
  | .integer n, rest => integerChars n ++ rest
  | .double x, rest =>
    if x.isFinite then x.text.toList ++ rest else 'n' :: 'u' :: 'l' :: 'l' :: rest
  | .string s, rest => quote s ++ rest
  | .array [], rest => '[' :: ']' :: rest
  | .array (x :: xs), rest => '[' :: writeChars x (writeItems xs rest)
  | .object [], rest => '{' :: '}' :: rest
  | .object ((k, x) :: ms), rest => '{' :: (quote k ++ ':' :: writeChars x (writeMembers ms rest))

/-- The items after the first and the closing bracket. -/
def writeItems : List Json → (rest : List Char) → List Char
  | [], rest => ']' :: rest
  | x :: xs, rest => ',' :: writeChars x (writeItems xs rest)

/-- The members after the first and the closing brace. -/
def writeMembers : List (String × Json) → (rest : List Char) → List Char
  | [], rest => '}' :: rest
  | (k, x) :: ms, rest => ',' :: (quote k ++ ':' :: writeChars x (writeMembers ms rest))
end

/-- The compact text of a value. -/
def compact (j : Json) : String := String.ofList (writeChars j [])

end Workflows.Json
