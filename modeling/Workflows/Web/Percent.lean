/-
  Workflows.Web.Percent — percent-encoding.

  A character that may not stand for itself is written as its UTF-8 bytes, each a percent sign
  and two hexadecimal digits. Reading takes such triples back to bytes and leaves alone a
  percent sign that two digits do not follow.
-/
namespace Workflows.Web

def upperHexDigit (n : Nat) : Char := if n < 10 then Char.ofNat (48 + n) else Char.ofNat (55 + n)

def percentByte (b : UInt8) : List Char :=
  ['%', upperHexDigit (b.toNat / 16), upperHexDigit (b.toNat % 16)]

/-- Encodes the characters that are not kept; ASCII alone can be kept. -/
def percentEncode (keep : Char → Bool) (cs : List Char) : List Char :=
  cs.flatMap fun c =>
    if c.toNat < 128 && keep c then [c] else (String.utf8EncodeChar c).flatMap percentByte

def hexValue? (c : Char) : Option Nat :=
  if '0' ≤ c ∧ c ≤ '9' then some (c.toNat - 48)
  else if 'a' ≤ c ∧ c ≤ 'f' then some (c.toNat - 87)
  else if 'A' ≤ c ∧ c ≤ 'F' then some (c.toNat - 55)
  else none

/-- The bytes a text stands for. -/
def percentBytes : List Char → List UInt8
  | '%' :: a :: b :: rest =>
    match hexValue? a, hexValue? b with
    | some x, some y => UInt8.ofNat (16 * x + y) :: percentBytes rest
    | _, _ => 0x25 :: percentBytes (a :: b :: rest)
  | c :: rest => String.utf8EncodeChar c ++ percentBytes rest
  | [] => []

/-- The text a percent-encoded one stands for, if its bytes are UTF-8. -/
def percentDecode? (s : String) : Option String :=
  String.fromUTF8? ⟨(percentBytes s.toList).toArray⟩

end Workflows.Web
