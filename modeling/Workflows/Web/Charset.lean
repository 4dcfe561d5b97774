/-
  Workflows.Web.Charset — the text of a body by the charset of its media type.

  A body is a text in UTF-8 unless its media type names another charset that is known here:
  windows-1252, which all names of Latin-1 and of ASCII stand for, or UTF-16. A byte order mark
  of UTF-8 counts for more than any name, and is no part of the text.
-/
namespace Workflows.Web

inductive Charset where
  | utf8 | windows1252 | utf16 (bigEndian : Bool)
deriving DecidableEq, Repr

namespace Charset

def windows1252Labels : List String :=
  ["ansi_x3.4-1968", "ascii", "cp1252", "cp819", "csisolatin1", "ibm819", "iso-8859-1",
    "iso-ir-100", "iso8859-1", "iso88591", "iso_8859-1", "iso_8859-1:1987", "l1", "latin1",
    "us-ascii", "windows-1252", "x-cp1252"]

def utf16Labels : List String :=
  ["csunicode", "iso-10646-ucs-2", "ucs-2", "unicode", "unicodefeff", "utf-16", "utf-16le"]

/-- The charset of a name; UTF-8 if it is not known. -/
def ofLabel (label : String) : Charset :=
  if windows1252Labels.contains label then .windows1252
  else if utf16Labels.contains label then .utf16 false
  else if label = "utf-16be" ∨ label = "unicodefffe" then .utf16 true
  else .utf8

/-- The text without blanks at its ends, in lower case. -/
def labelText (cs : List Char) : List Char :=
  let isBlank (c : Char) : Bool := c = ' ' || c = '\t' || c = '\n' || c = '\r' || c = '\x0c'
  (((cs.dropWhile isBlank).reverse.dropWhile isBlank).reverse).map Char.toLower

/-- The value of a parameter, with or without quotes. -/
def unquoted : List Char → List Char
  | '"' :: rest => rest.takeWhile (· ≠ '"')
  | cs => cs

/-- The charset a media type names. -/
def ofMediaType (text : String) : Charset :=
  let parameter? (part : List Char) : Option String :=
    if labelText (part.takeWhile (· ≠ '=')) = "charset".toList then
      some (String.ofList (labelText (unquoted ((part.dropWhile (· ≠ '=')).drop 1))))
    else none
  match (text.toList.splitOn ';').drop 1 |>.findSome? parameter? with
  | some label => ofLabel label
  | none => .utf8

/-- The characters of the bytes from 0x80 to 0x9F in windows-1252. -/
def windows1252Controls : List Nat :=
  [0x20AC, 0x81, 0x201A, 0x192, 0x201E, 0x2026, 0x2020, 0x2021, 0x2C6, 0x2030, 0x160, 0x2039,
    0x152, 0x8D, 0x17D, 0x8F, 0x90, 0x2018, 0x2019, 0x201C, 0x201D, 0x2022, 0x2013, 0x2014,
    0x2DC, 0x2122, 0x161, 0x203A, 0x153, 0x9D, 0x17E, 0x178]

def ofWindows1252 (b : UInt8) : Char :=
  let n := b.toNat
  if 0x80 ≤ n ∧ n < 0xA0 then Char.ofNat (windows1252Controls.getD (n - 0x80) 0xFFFD)
  else Char.ofNat n

/-- The words of two bytes each; none stands for a byte that is left alone. -/
def words (bigEndian : Bool) : List UInt8 → List (Option Nat)
  | a :: b :: rest =>
    some (if bigEndian then 256 * a.toNat + b.toNat else 256 * b.toNat + a.toNat)
      :: words bigEndian rest
  | [_] => [none]
  | [] => []

/-- The characters of words; what stands for none is replaced. -/
def ofWords : List (Option Nat) → List Char
  | [] => []
  | some high :: some low :: rest =>
    if 0xD800 ≤ high ∧ high < 0xDC00 ∧ 0xDC00 ≤ low ∧ low < 0xE000 then
      Char.ofNat (0x10000 + (high - 0xD800) * 1024 + (low - 0xDC00)) :: ofWords rest
    else (if 0xD800 ≤ high ∧ high < 0xE000 then '\uFFFD' else Char.ofNat high)
      :: ofWords (some low :: rest)
  | some word :: rest =>
    (if 0xD800 ≤ word ∧ word < 0xE000 then '\uFFFD' else Char.ofNat word) :: ofWords rest
  | none :: rest => '\uFFFD' :: ofWords rest

/-- The text of a body whose bytes are those of `body` in UTF-8. -/
def decode (charset : Charset) (body : String) : String :=
  match body.toList with
  | '\uFEFF' :: rest => String.ofList rest
  | _ =>
    match charset with
    | .utf8 => body
    | .windows1252 => String.ofList (body.toUTF8.toList.map ofWindows1252)
    | .utf16 bigEndian => String.ofList (ofWords (words bigEndian body.toUTF8.toList))

end Charset
end Workflows.Web
