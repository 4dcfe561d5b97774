/-
  Workflows.Time.Rfc3339 — timestamps as text.

  `Instant.text` writes UTC with `Z` and the fewest of 0, 3, 6 or 9 fraction digits that lose
  nothing. `Instant.parse` is more lenient than RFC 3339: blanks may stand before each number
  and separator, numbers may be short, a year may be signed and long, and the offset may leave
  out its colon. `Instant.columnText` is the form of fixed width in which a table keeps
  instants, and `Instant.ofColumn?` reads that form only.
-/
import Workflows.Numeric.Power
import Workflows.Time.Instant
import Workflows.Text.Blank
namespace Workflows

/-- Why a text is not a timestamp. -/
inductive TimeError where
  | invalid | tooShort | outOfRange | trailing | impossible
deriving DecidableEq, Repr

def TimeError.message : TimeError → String
  | .invalid => "input contains invalid characters"
  | .tooShort => "premature end of input"
  | .outOfRange => "input is out of range"
  | .trailing => "trailing input"
  | .impossible => "no possible date and time matching input"

namespace Instant

/-! ## Writing -/

/-- Decimal digits, at least `width` of them. -/
def padded (width n : Nat) : List Char :=
  let ds := Nat.toDigits 10 n
  List.replicate (width - ds.length) '0' ++ ds

/-- Four digits for the years 0 to 9999, else a sign and at least four digits. -/
def yearChars (y : Int) : List Char :=
  if 0 ≤ y ∧ y ≤ 9999 then padded 4 y.toNat
  else (if y < 0 then '-' else '+') :: padded 4 y.natAbs

/-- Date, `T` and time of day; a leap second is second 60. -/
def dateTimeChars (a : Instant) : List Char :=
  let d := a.date
  let s := a.secondOfDay
  let second := s % 60 + (if 1000000000 ≤ a.nanos then 1 else 0)
  yearChars d.year ++ '-' :: padded 2 d.month ++ '-' :: padded 2 d.day ++ 'T' :: padded 2 (s / 3600)
    ++ ':' :: padded 2 (s / 60 % 60) ++ ':' :: padded 2 second

/-- Nanoseconds past the second that is shown. -/
def fraction (a : Instant) : Nat := a.nanos % 1000000000

def fractionChars (nanos : Nat) : List Char :=
  if nanos = 0 then []
  else if nanos % 1000000 = 0 then '.' :: padded 3 (nanos / 1000000)
  else if nanos % 1000 = 0 then '.' :: padded 6 (nanos / 1000)
  else '.' :: padded 9 nanos

/-- The shortest of the usual forms that loses nothing. -/
def text (a : Instant) : String :=
  String.ofList (a.dateTimeChars ++ fractionChars a.fraction ++ ['Z'])

/-- The form of fixed width: always nine fraction digits. -/
def columnText (a : Instant) : String :=
  String.ofList (a.dateTimeChars ++ '.' :: padded 9 a.fraction ++ ['Z'])

/-! ## Reading -/

def isDigit (c : Char) : Bool := '0' ≤ c && c ≤ '9'

def digitsNat (ds : List Char) : Nat := ds.foldl (fun n d => n * 10 + (d.toNat - 48)) 0

/-- Reads a number of at least one digit and of at most `width` digits, if a width is given. -/
def readNumber (width : Option Nat) (cs : List Char) : Except TimeError (Nat × List Char) :=
  let window := match width with
    | some w => cs.take w
    | none => cs
  let digits := window.takeWhile isDigit
  if digits.isEmpty then .error (if cs.isEmpty then .tooShort else .invalid)
  else if pow2 63 ≤ digitsNat digits then .error .outOfRange
  else .ok (digitsNat digits, cs.drop digits.length)

/-- A number of two digits at most, within bounds. -/
def readField (low high : Nat) (cs : List Char) : Except TimeError (Nat × List Char) := do
  let (n, rest) ← readNumber (some 2) (Text.trimStart cs)
  if low ≤ n ∧ n ≤ high then return (n, rest) else throw .outOfRange

def readYear (cs : List Char) : Except TimeError (Int × List Char) := do
  let (y, rest) : Int × List Char ← match Text.trimStart cs with
    | '-' :: rest => do let (n, rest) ← readNumber none rest; pure (-(n : Int), rest)
    | '+' :: rest => do let (n, rest) ← readNumber none rest; pure ((n : Int), rest)
    | cs => do let (n, rest) ← readNumber (some 4) cs; pure ((n : Int), rest)
  if -2147483648 ≤ y ∧ y ≤ 2147483647 then return (y, rest) else throw .outOfRange

/-- A separator, blanks before it skipped. -/
def readMark (mark : Char) (cs : List Char) : Except TimeError (List Char) :=
  match Text.trimStart cs with
  | [] => .error .tooShort
  | c :: rest => if c = mark then .ok rest else .error .invalid

/-- Nanoseconds: digits after a point, those after the ninth being dropped. -/
def readFraction (cs : List Char) : Except TimeError (Nat × List Char) :=
  match cs with
  | '.' :: rest => do
    let (n, after) ← readNumber (some 9) rest
    let width := rest.length - after.length
    return (n * pow10 (9 - width), after.dropWhile isDigit)
  | cs => .ok (0, cs)

/-- Seconds east of Greenwich: `Z`, `UTC`, or a sign, two digits of hours and two of minutes. -/
def readOffset (cs : List Char) : Except TimeError (Int × List Char) := do
  match cs with
  | u :: t :: c :: rest =>
    if u.toUpper = 'U' ∧ t.toUpper = 'T' ∧ c.toUpper = 'C' then return (0, rest)
  | _ => pure ()
  match cs with
  | [] => throw .tooShort
  | c :: rest =>
    if c = 'Z' ∨ c = 'z' then return (0, rest)
    else if c ≠ '+' ∧ c ≠ '-' ∧ c ≠ '\u2212' then throw .invalid
    else
      let (hours, rest) ← twoDigits rest
      let rest := rest.dropWhile fun c => c = ':' || Text.isSpace c
      let (minutes, rest) ← twoDigits rest
      if 60 ≤ minutes then throw .outOfRange
      let seconds : Int := hours * 3600 + minutes * 60
      return (if c = '+' then seconds else -seconds, rest)
where
  twoDigits (cs : List Char) : Except TimeError (Nat × List Char) :=
    match cs with
    | a :: b :: rest =>
      if isDigit a ∧ isDigit b then .ok (digitsNat [a, b], rest) else .error .invalid
    -- two bytes are looked at, so that one character of two bytes or more is invalid
    | [a] => .error (if a.utf8Size < 2 then .tooShort else .invalid)
    | [] => .error .tooShort

/-- The instant of a date and a time of day, the second possibly being 60. -/
def ofCivil? (d : CivilDate) (hour minute second nanos : Nat) (h : nanos < 1000000000) :
    Option Instant :=
  if d.isValid then
    let s : Int := d.toDays * 86400 + ((hour * 3600 + minute * 60 : Nat) : Int)
    if second = 60 then
      if hl : (s + 59) % 60 = 59 then some ⟨s + 59, nanos + 1000000000, by omega, fun _ => hl⟩
      else none
    else some ⟨s + second, nanos, by omega, by omega⟩
  else none

/-- The instant by the clock of a place, moved to UTC; a whole number of minutes always is. -/
def shift? (a : Instant) (offset : Int) : Option Instant :=
  if h : 1000000000 ≤ a.nanos → (a.seconds - offset) % 60 = 59 then
    some ⟨a.seconds - offset, a.nanos, a.nanos_lt, h⟩
  else none

/-- Reads a timestamp. -/
def parse (s : String) : Except TimeError Instant := do
  let (year, cs) ← readYear s.toList
  let cs ← readMark '-' cs
  let (month, cs) ← readField 1 12 cs
  let cs ← readMark '-' cs
  let (day, cs) ← readField 1 31 cs
  let cs ← match cs with
    | [] => throw .tooShort
    | c :: rest => if c = 'T' ∨ c = 't' ∨ c = ' ' then pure rest else throw .invalid
  let (hour, cs) ← readField 0 23 cs
  let cs ← readMark ':' cs
  let (minute, cs) ← readField 0 59 cs
  let cs ← readMark ':' cs
  let (second, cs) ← readField 0 60 cs
  let (nanos, cs) ← readFraction cs
  let (offset, cs) ← readOffset (Text.trimStart cs)
  if !(Text.trimStart cs).isEmpty then throw .trailing
  if h : nanos < 1000000000 then
    match ofCivil? ⟨year, month, day⟩ hour minute second nanos h with
    | none => throw .outOfRange
    | some here =>
      if !here.inRange || 86400 ≤ offset.natAbs then throw .outOfRange
      match here.shift? offset with
      | none => throw .impossible
      | some utc => if utc.inRange then return utc else throw .impossible
  else throw .outOfRange

/-- A number of exactly `width` digits. -/
def exactly? (width : Nat) (cs : List Char) : Option (Nat × List Char) :=
  let ds := cs.take width
  if ds.length = width ∧ ds.all isDigit then some (digitsNat ds, cs.drop width) else none

def mark? (mark : Char) : List Char → Option (List Char)
  | c :: rest => if c = mark then some rest else none
  | [] => none

/-- Reads the form of fixed width, which has four digits for the year. -/
def ofColumn? (s : String) : Option Instant := do
  let (year, cs) ← exactly? 4 s.toList
  let (month, cs) ← exactly? 2 (← mark? '-' cs)
  let (day, cs) ← exactly? 2 (← mark? '-' cs)
  let (hour, cs) ← exactly? 2 (← mark? 'T' cs)
  let (minute, cs) ← exactly? 2 (← mark? ':' cs)
  let (second, cs) ← exactly? 2 (← mark? ':' cs)
  let (nanos, cs) ← exactly? 9 (← mark? '.' cs)
  let cs ← mark? 'Z' cs
  if h : nanos < 1000000000 then
    if cs.isEmpty ∧ hour < 24 ∧ minute < 60 ∧ second ≤ 60 then
      ofCivil? ⟨year, month, day⟩ hour minute second nanos h
    else none
  else none

end Instant
end Workflows
