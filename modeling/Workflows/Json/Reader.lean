/-
  Workflows.Json.Reader — reading a JSON value from its text.

  A reader gives a value and the characters after it, or the first fault it met. A text
  may nest arrays and objects only so deeply (`room` counts the levels that are left); a
  document read on its own has room for 127 of them. Of a repeated key the last value stays.

  An integer that fits 64 bits is an integer. Any other number becomes a double: as many of
  its leading digits as fit 64 bits are kept and scaled (`Binary64.ofDecimalScaled`).
-/
import Workflows.Json.Basic
import Workflows.Text.Place
namespace Workflows.Json

/-- Why a text is not JSON. -/
inductive SyntaxError where
  | eofInList | eofInObject | eofInString | eofInValue
  | expectedColon | expectedListCommaOrEnd | expectedObjectCommaOrEnd
  | expectedIdent | expectedValue | invalidNumber | numberOutOfRange
  | invalidEscape | controlCharacter | loneSurrogate | unexpectedEndOfHexEscape
  | keyMustBeString | trailingComma | trailingCharacters | tooDeep
deriving DecidableEq, Repr

def SyntaxError.message : SyntaxError → String
  | .eofInList => "EOF while parsing a list"
  | .eofInObject => "EOF while parsing an object"
  | .eofInString => "EOF while parsing a string"
  | .eofInValue => "EOF while parsing a value"
  | .expectedColon => "expected \x60:\x60"
  | .expectedListCommaOrEnd => "expected \x60,\x60 or \x60]\x60"
  | .expectedObjectCommaOrEnd => "expected \x60,\x60 or \x60\x7d\x60"
  | .expectedIdent => "expected ident"
  | .expectedValue => "expected value"
  | .invalidNumber => "invalid number"
  | .numberOutOfRange => "number out of range"
  | .invalidEscape => "invalid escape"
  | .controlCharacter => "control character (\\u0000-\\u001F) found while parsing a string"
  | .loneSurrogate => "lone leading surrogate in hex escape"
  | .unexpectedEndOfHexEscape => "unexpected end of hex escape"
  | .keyMustBeString => "key must be a string"
  | .trailingComma => "trailing comma"
  | .trailingCharacters => "trailing characters"
  | .tooDeep => "recursion limit exceeded"

def isBlank (c : Char) : Bool := c = ' ' || c = '\n' || c = '\t' || c = '\r'

def skipBlank (cs : List Char) : List Char := cs.dropWhile isBlank

def isDigit (c : Char) : Bool := '0' ≤ c && c ≤ '9'

def digitValue (c : Char) : Nat := c.toNat - 48

/-! ## Words and numbers -/

/-- The rest of a literal name. -/
def readWord : (word : List Char) → List Char → Except SyntaxError (List Char)
  | [], cs => .ok cs
  | _ :: _, [] => .error .eofInValue
  | w :: ws, c :: cs => if c = w then readWord ws cs else .error .expectedIdent

def maxWord : Nat := pow2 64 - 1

/-- Appends digits to a significand while it fits 64 bits; also how many were left over. -/
def keepDigits : (significand : Nat) → (digits : List Char) → Nat × Nat
  | s, [] => (s, 0)
  | s, d :: ds =>
    let next := s * 10 + digitValue d
    if maxWord < next then (s, ds.length + 1) else keepDigits next ds

def decimal (negative : Bool) (significand : Nat) (e : Int) (rest : List Char) :
    Except SyntaxError (Json × List Char) :=
  match Binary64.ofDecimalScaled negative significand e with
  | some x => .ok (.double x, rest)
  | none => .error .numberOutOfRange

def digitsNat (ds : List Char) : Nat := ds.foldl (fun n d => n * 10 + digitValue d) 0

/-- Reads an exponent, after its letter. -/
def readExponent (negative : Bool) (significand : Nat) (e : Int) (cs : List Char) :
    Except SyntaxError (Json × List Char) :=
  let (down, cs) : Bool × List Char := match cs with
    | '+' :: cs => (false, cs)
    | '-' :: cs => (true, cs)
    | cs => (false, cs)
  match cs with
  | [] => .error .eofInValue
  | c :: _ =>
    if isDigit c then
      let n : Int := digitsNat (cs.takeWhile isDigit)
      decimal negative significand (if down then e - n else e + n) (cs.dropWhile isDigit)
    else .error .invalidNumber

/-- Reads the digits after a decimal point. -/
def readFraction (negative : Bool) (significand : Nat) (e : Int) (cs : List Char) :
    Except SyntaxError (Json × List Char) :=
  let digits := cs.takeWhile isDigit
  let rest := cs.dropWhile isDigit
  if digits.isEmpty then
    .error (if cs.isEmpty then .eofInValue else .invalidNumber)
  else
    let (significand, dropped) := keepDigits significand digits
    let e := e - ((digits.length - dropped : Nat) : Int)
    match rest with
    | 'e' :: rest | 'E' :: rest => readExponent negative significand e rest
    | rest => decimal negative significand e rest

/-- An integer that fits 64 bits, of the given sign; `-0` and what lies below are doubles. -/
def integral (negative : Bool) (n : Nat) : Json :=
  if negative then
    if n = 0 ∨ pow2 63 < n then .double (Binary64.ofRatio true n 1) else .integer (-(n : Int))
  else .integer n

/-- Reads a number, after its sign. -/
def readNumber (negative : Bool) (cs : List Char) : Except SyntaxError (Json × List Char) :=
  let digits := cs.takeWhile isDigit
  let rest := cs.dropWhile isDigit
  match digits with
  | [] => .error (if cs.isEmpty then .eofInValue else .invalidNumber)
  | '0' :: _ :: _ => .error .invalidNumber
  | digits =>
    let (significand, dropped) := keepDigits 0 digits
    match rest with
    | '.' :: rest => readFraction negative significand dropped rest
    | 'e' :: rest | 'E' :: rest => readExponent negative significand dropped rest
    | rest =>
      if dropped = 0 then .ok (integral negative significand, rest)
      else decimal negative significand dropped rest

/-! ## Strings -/

def hexValue? (c : Char) : Option Nat :=
  if isDigit c then some (c.toNat - 48)
  else if 'a' ≤ c ∧ c ≤ 'f' then some (c.toNat - 87)
  else if 'A' ≤ c ∧ c ≤ 'F' then some (c.toNat - 55)
  else none

/-- What a string's reader has just seen. `lead` is a first surrogate that waits for its
second. -/
inductive StringState where
  | plain
  | escape
  | hex (count value : Nat) (lead : Option Nat)
  | afterLead (lead : Nat)
  | escapeAfterLead (lead : Nat)
deriving DecidableEq

/-- The character of a one-letter escape. -/
def letterEscape? (c : Char) : Option Char :=
  if c = '"' ∨ c = '\\' ∨ c = '/' then some c
  else if c = 'b' then some (Char.ofNat 8)
  else if c = 'f' then some (Char.ofNat 12)
  else if c = 'n' then some '\n'
  else if c = 'r' then some '\r'
  else if c = 't' then some '\t'
  else none

/-- Reads a string after its opening quote; `done` holds what was read, last first. -/
def readStringFrom : StringState → (done : List Char) → List Char →
    Except SyntaxError (String × List Char)
  | _, _, [] => .error .eofInString
  | .plain, done, c :: rest =>
    if c = '"' then .ok (String.ofList done.reverse, rest)
    else if c = '\\' then readStringFrom .escape done rest
    else if c.toNat < 32 then .error .controlCharacter
    else readStringFrom .plain (c :: done) rest
  | .escape, done, c :: rest =>
    if c = 'u' then readStringFrom (.hex 0 0 none) done rest
    else
      match letterEscape? c with
      | some e => readStringFrom .plain (e :: done) rest
      | none => .error .invalidEscape
  | .hex count value lead, done, c :: rest =>
    match hexValue? c with
    | none =>
      -- four bytes are looked at together: too short a text ends before it is malformed
      .error (if Text.utf8Length (c :: rest) < 4 - count then .eofInString else .invalidEscape)
    | some d =>
      let value := value * 16 + d
      if count < 3 then readStringFrom (.hex (count + 1) value lead) done rest
      else
        match lead with
        | none =>
          if 0xDC00 ≤ value ∧ value ≤ 0xDFFF then .error .loneSurrogate
          else if 0xD800 ≤ value ∧ value ≤ 0xDBFF then
            readStringFrom (.afterLead value) done rest
          else readStringFrom .plain (Char.ofNat value :: done) rest
        | some first =>
          if 0xDC00 ≤ value ∧ value ≤ 0xDFFF then
            let code := (first - 0xD800) * 1024 + (value - 0xDC00) + 0x10000
            readStringFrom .plain (Char.ofNat code :: done) rest
          else .error .loneSurrogate
  | .afterLead first, done, c :: rest =>
    if c = '\\' then readStringFrom (.escapeAfterLead first) done rest
    else .error .unexpectedEndOfHexEscape
  | .escapeAfterLead first, done, c :: rest =>
    if c = 'u' then readStringFrom (.hex 0 0 (some first)) done rest
    else .error .unexpectedEndOfHexEscape

/-- Reads a string after its opening quote. -/
def readString (cs : List Char) :
    Except SyntaxError (String × List Char) :=
  readStringFrom .plain [] cs

/-! ## Lists and objects -/

/-- Reads up to the next item of a list: `true` when there is one, `false` at the closing
bracket, which stays. -/
def nextItem (first : Bool) (cs : List Char) : Except SyntaxError (Bool × List Char) :=
  match skipBlank cs with
  | [] => .error .eofInList
  | ']' :: rest => .ok (false, ']' :: rest)
  | ',' :: rest =>
    if first then .ok (true, ',' :: rest)
    else
      match skipBlank rest with
      | [] => .error .eofInValue
      | ']' :: _ => .error .trailingComma
      | rest => .ok (true, rest)
  | rest => if first then .ok (true, rest) else .error .expectedListCommaOrEnd

/-- Reads up to the next key of an object, past its opening quote: `true` when there is one,
`false` at the closing brace, which stays. -/
def nextKey (first : Bool) (cs : List Char) : Except SyntaxError (Bool × List Char) :=
  match skipBlank cs with
  | [] => .error .eofInObject
  | '}' :: rest => .ok (false, '}' :: rest)
  | '"' :: rest => if first then .ok (true, rest) else .error .expectedObjectCommaOrEnd
  | ',' :: rest =>
    if first then .error .keyMustBeString
    else
      match skipBlank rest with
      | [] => .error .eofInValue
      | '}' :: _ => .error .trailingComma
      | '"' :: rest => .ok (true, rest)
      | _ => .error .keyMustBeString
  | _ => .error (if first then .keyMustBeString else .expectedObjectCommaOrEnd)

/-- Reads the colon after a key. -/
def readColon (cs : List Char) : Except SyntaxError (List Char) :=
  match skipBlank cs with
  | [] => .error .eofInObject
  | ':' :: rest => .ok rest
  | _ => .error .expectedColon

/-- Reads the end of a list of which no more items are wanted. -/
def endList (cs : List Char) : Except SyntaxError (List Char) :=
  match skipBlank cs with
  | [] => .error .eofInList
  | ']' :: rest => .ok rest
  | ',' :: rest =>
    match skipBlank rest with
    | ']' :: _ => .error .trailingComma
    | _ => .error .trailingCharacters
  | _ => .error .trailingCharacters

/-! ## Values -/

/-- A scalar, or the opening of a list or an object. -/
inductive Head where
  | scalar (value : Json)
  | list
  | object

/-- Reads a scalar or an opening bracket or brace, blanks before it skipped. -/
def readHead (cs : List Char) : Except SyntaxError (Head × List Char) :=
  match skipBlank cs with
  | [] => .error .eofInValue
  | c :: rest =>
    if c = '[' then .ok (.list, rest)
    else if c = '{' then .ok (.object, rest)
    else if c = '"' then do
      let (s, rest) ← readString rest
      return (.scalar (.string s), rest)
    else if c = 'n' then do return (.scalar .null, ← readWord ['u', 'l', 'l'] rest)
    else if c = 't' then do return (.scalar (.bool true), ← readWord ['r', 'u', 'e'] rest)
    else if c = 'f' then do return (.scalar (.bool false), ← readWord ['a', 'l', 's', 'e'] rest)
    else if c = '-' then do
      let (n, rest) ← readNumber true rest
      return (.scalar n, rest)
    else if isDigit c then do
      let (n, rest) ← readNumber false (c :: rest)
      return (.scalar n, rest)
    else .error .expectedValue

mutual
/-- Reads a value. `fuel` bounds the steps (the length of the text suffices); `room` is the
number of levels that may still be opened. -/
def readValue : (fuel room : Nat) → List Char → Except SyntaxError (Json × List Char)
  | 0, _, _ => .error .eofInValue
  | fuel + 1, room, cs => do
    match ← readHead cs with
    | (.scalar value, rest) => return (value, rest)
    | (.list, rest) =>
      if room = 0 then .error .tooDeep
      else
        let (items, rest) ← readItems fuel (room - 1) true rest
        return (.array items, rest)
    | (.object, rest) =>
      if room = 0 then .error .tooDeep
      else
        let (members, rest) ← readMembers fuel (room - 1) true [] rest
        return (.object members, rest)

def readItems : (fuel room : Nat) → (first : Bool) → List Char →
    Except SyntaxError (List Json × List Char)
  | 0, _, _, _ => .error .eofInList
  | fuel + 1, room, first, cs => do
    match ← nextItem first cs with
    | (false, rest) => return ([], rest.drop 1)
    | (true, rest) =>
      let (x, rest) ← readValue fuel room rest
      let (xs, rest) ← readItems fuel room false rest
      return (x :: xs, rest)

def readMembers : (fuel room : Nat) → (first : Bool) → (before : Keyed Json) → List Char →
    Except SyntaxError (Keyed Json × List Char)
  | 0, _, _, _, _ => .error .eofInObject
  | fuel + 1, room, first, before, cs => do
    match ← nextKey first cs with
    | (false, rest) => return (before, rest.drop 1)
    | (true, rest) =>
      let (key, rest) ← readString rest
      let (x, rest) ← readValue fuel room (← readColon rest)
      readMembers fuel room false (before.insert key x) rest
end

/-- Nothing but blanks may follow a document. -/
def endDocument (cs : List Char) : Except SyntaxError Unit :=
  if (skipBlank cs).isEmpty then .ok () else .error .trailingCharacters

/-- Reads a text that is one value and nothing else, with `room` levels of nesting. -/
def parseWithin (room : Nat) (text : String) : Except SyntaxError Json := do
  let cs := text.toList
  let (value, rest) ← readValue (2 * cs.length + 1) room cs
  endDocument rest
  return value

/-- How deep a document may nest. -/
def depthLimit : Nat := 127

/-- Reads a document. -/
def parse (text : String) : Except SyntaxError Json := parseWithin depthLimit text

end Workflows.Json
