/-
  Workflows.Time.Instant — instants of UTC to the nanosecond, and the calendar.

  An instant is a count of seconds from 1970-01-01T00:00:00Z and a count of nanoseconds. A
  leap second is the last second of its minute held for longer: there the nanoseconds run on
  from 10⁹ to 2·10⁹. Instants are ordered by seconds, then nanoseconds.
-/
namespace Workflows

/-- An instant of UTC. -/
structure Instant where
  seconds : Int
  nanos : Nat
  nanos_lt : nanos < 2000000000 := by omega
  /-- A leap second extends the last second of a minute. -/
  leap : 1000000000 ≤ nanos → seconds % 60 = 59 := by omega
deriving DecidableEq

namespace Instant

/-- 1970-01-01T00:00:00Z. -/
def epoch : Instant := ⟨0, 0, by omega, by omega⟩

instance : Inhabited Instant := ⟨epoch⟩

def before (a b : Instant) : Bool :=
  a.seconds < b.seconds || (a.seconds = b.seconds && a.nanos < b.nanos)

instance : LT Instant := ⟨fun a b => a.before b⟩
instance : LE Instant := ⟨fun a b => ¬ b.before a⟩
instance (a b : Instant) : Decidable (a < b) := inferInstanceAs (Decidable (a.before b = true))
instance (a b : Instant) : Decidable (a ≤ b) := inferInstanceAs (Decidable (¬ b.before a = true))

/-- The instant that many whole seconds after (a leap second counts as the second it extends). -/
def addSeconds (a : Instant) (n : Int) : Instant :=
  if h : a.nanos < 1000000000 then ⟨a.seconds + n, a.nanos, by omega, by omega⟩
  else ⟨a.seconds + n, 999999999, by omega, by omega⟩

/-- The instant one microsecond later. -/
def tick (a : Instant) : Instant :=
  if h : a.nanos + 1000 < 1000000000 then ⟨a.seconds, a.nanos + 1000, by omega, by omega⟩
  else ⟨a.seconds + 1, 0, by omega, by omega⟩

end Instant

/-! ## The calendar -/

/-- A day of the Gregorian calendar, extended to all years; year 0 is 1 BC. -/
structure CivilDate where
  year : Int
  month : Nat
  day : Nat
deriving DecidableEq, Repr

namespace CivilDate

def isLeapYear (y : Int) : Bool := y % 4 = 0 && (y % 100 ≠ 0 || y % 400 = 0)

def daysInMonth (y : Int) (m : Nat) : Nat :=
  if m = 2 then (if isLeapYear y then 29 else 28)
  else if m = 4 ∨ m = 6 ∨ m = 9 ∨ m = 11 then 30 else 31

/-- Whether the day exists. -/
def isValid (d : CivilDate) : Bool :=
  1 ≤ d.month && d.month ≤ 12 && 1 ≤ d.day && d.day ≤ daysInMonth d.year d.month

/-- Days from 1970-01-01. Years are counted from March, so that the leap day is the last. -/
def toDays (d : CivilDate) : Int :=
  let y := if d.month ≤ 2 then d.year - 1 else d.year
  let era := Int.fdiv y 400
  let yearOfEra := (y - era * 400).toNat
  let monthFromMarch := (d.month + 9) % 12
  let dayOfYear := (153 * monthFromMarch + 2) / 5 + (d.day - 1)
  let dayOfEra := yearOfEra * 365 + yearOfEra / 4 - yearOfEra / 100 + dayOfYear
  era * 146097 + dayOfEra - 719468

/-- The day that many days from 1970-01-01. -/
def ofDays (n : Int) : CivilDate :=
  let z := n + 719468
  let era := Int.fdiv z 146097
  let dayOfEra := (z - era * 146097).toNat
  let yearOfEra := (dayOfEra - dayOfEra / 1460 + dayOfEra / 36524 - dayOfEra / 146096) / 365
  let dayOfYear := dayOfEra - (365 * yearOfEra + yearOfEra / 4 - yearOfEra / 100)
  let monthFromMarch := (5 * dayOfYear + 2) / 153
  let day := dayOfYear - (153 * monthFromMarch + 2) / 5 + 1
  let month := if monthFromMarch < 10 then monthFromMarch + 3 else monthFromMarch - 9
  ⟨(yearOfEra : Int) + era * 400 + (if month ≤ 2 then 1 else 0), month, day⟩

end CivilDate

namespace Instant

/-- The day the instant falls on. -/
def date (a : Instant) : CivilDate := CivilDate.ofDays (Int.fdiv a.seconds 86400)

/-- Seconds since the start of the day. -/
def secondOfDay (a : Instant) : Nat := (Int.fmod a.seconds 86400).toNat

/-- Midnight of the last day, as days from 1970, of the years that can be told (±262143). -/
def lastDay : Int := CivilDate.toDays ⟨262142, 12, 31⟩
def firstDay : Int := CivilDate.toDays ⟨-262143, 1, 1⟩

/-- Whether the instant falls on a day of the years that can be told. -/
def inRange (a : Instant) : Bool :=
  let day := Int.fdiv a.seconds 86400
  firstDay ≤ day && day ≤ lastDay

end Instant
end Workflows
