/-
  Workflows.Numeric.Binary64 — IEEE 754 doubles as bits, with exact rounding.

  A finite double is `(-1)^s · m · 2^q` with natural `m < 2^53` and `-1074 ≤ q`. Every
  operation here computes the exact rational result and rounds it once, to nearest, ties
  to the even significand (`ofRatio`); nothing depends on the machine's own floats, so
  each value is decided by `Nat` arithmetic.
-/
import Workflows.Numeric.Power
namespace Workflows

/-- An IEEE 754 binary64 value, held as its bits. -/
structure Binary64 where
  bits : UInt64
deriving DecidableEq, Inhabited, Repr

namespace Binary64

/-- The quotient `num / den` rounded to the nearest integer, a half going to the even one. -/
def roundHalfEven (num den : Nat) : Nat :=
  let q := num / den
  let r := 2 * (num % den)
  if r < den then q else if den < r then q + 1 else q + q % 2

/-- `n · 2^e` as a fraction. -/
def scaleTwo (n : Nat) (e : Int) : Nat × Nat :=
  if 0 ≤ e then (n * pow2 e.toNat, 1) else (n, pow2 (-e).toNat)

def signBit (negative : Bool) : Nat := if negative then pow2 63 else 0

/-- The bits of an infinity, without the sign. -/
def infinityBits : Nat := 2047 * pow2 52

/-- `⌊log₂ (num / den)⌋` for positive `num` and `den`. -/
def floorLog2 (num den : Nat) : Int :=
  let k : Int := (Nat.log2 num : Int) - (Nat.log2 den : Int)
  let (a, b) := scaleTwo den k
  -- `2^k ≤ num / den` iff `den · 2^k ≤ num`
  if a ≤ num * b then k else k - 1

/-- The double nearest to `± num / den`; too large a value becomes an infinity. -/
def ofRatio (negative : Bool) (num den : Nat) : Binary64 :=
  if num = 0 ∨ den = 0 then ⟨(signBit negative).toUInt64⟩
  else
    let q : Int := max (floorLog2 num den - 52) (-1074)
    let m :=
      if 0 ≤ q then roundHalfEven num (den * pow2 q.toNat)
      else roundHalfEven (num * pow2 (-q).toNat) den
    let magnitude := (q + 1074).toNat * pow2 52 + m
    ⟨(signBit negative + min magnitude infinityBits).toUInt64⟩

def ofInt (n : Int) : Binary64 := ofRatio (n < 0) n.natAbs 1

def zero : Binary64 := ⟨0⟩

def isNegative (x : Binary64) : Bool := x.bits.toNat ≥ pow2 63

/-- The bits without the sign. -/
def magnitude (x : Binary64) : Nat := x.bits.toNat % pow2 63

def isFinite (x : Binary64) : Bool := x.magnitude < infinityBits

def isInfinite (x : Binary64) : Bool := x.magnitude = infinityBits

def isZero (x : Binary64) : Bool := x.magnitude = 0

def negate (x : Binary64) : Binary64 :=
  ⟨((if x.isNegative then 0 else pow2 63) + x.magnitude).toUInt64⟩

/-- The significand `m` of a finite double `m · 2^q`. -/
def significand (x : Binary64) : Nat :=
  if x.magnitude < pow2 52 then x.magnitude else x.magnitude % pow2 52 + pow2 52

/-- The exponent `q` of a finite double `m · 2^q`. -/
def exponent (x : Binary64) : Int :=
  if x.magnitude < pow2 52 then -1074 else (x.magnitude / pow2 52 : Nat) - 1075

/-- The absolute value of a finite double as a fraction. -/
def ratio (x : Binary64) : Nat × Nat := scaleTwo x.significand x.exponent

/-- Product of finite doubles, rounded once. -/
def mul (x y : Binary64) : Binary64 :=
  let (a, b) := x.ratio
  let (c, d) := y.ratio
  ofRatio (x.isNegative != y.isNegative) (a * c) (b * d)

/-- Quotient of finite doubles with a divisor other than zero, rounded once. -/
def div (x y : Binary64) : Binary64 :=
  let (a, b) := x.ratio
  let (c, d) := y.ratio
  ofRatio (x.isNegative != y.isNegative) (a * d) (b * c)

/-- Sum of finite doubles that are not negative, rounded once. -/
def addNonneg (x y : Binary64) : Binary64 :=
  let (a, b) := x.ratio
  let (c, d) := y.ratio
  ofRatio false (a * d + c * b) (b * d)

/-! ## Reading decimals -/

/-- The double nearest to `± digits · 10^e`. -/
def ofDecimal (negative : Bool) (digits : Nat) (e : Int) : Binary64 :=
  if digits = 0 then ofRatio negative 0 1
  -- beyond these bounds the answer is an infinity or zero whatever the digits
  else if 400 < e then ⟨(signBit negative + infinityBits).toUInt64⟩
  else if e + (Nat.log2 digits : Int) < -1200 then ofRatio negative 0 1
  else if 0 ≤ e then ofRatio negative (digits * pow10 e.toNat) 1
  else ofRatio negative digits (pow10 (-e).toNat)

/-- `10^k` for `k ≤ 308`, itself rounded to a double. -/
def powerOfTen (k : Nat) : Binary64 := ofRatio false (pow10 k) 1

/--
  The digits as a double, then scaled by one rounded power of ten at a time (308 places at
  most for each): fast readers do this, and the last place may differ from `ofDecimal`.
  `none` when the value is out of range. `steps` bounds the divisions; four always suffice,
  since three of them take every significand of 64 bits to zero.
-/
def scaleDecimal : (steps : Nat) → Binary64 → Int → Option Binary64
  | 0, f, _ => some f
  | steps + 1, f, e =>
    if e.natAbs ≤ 308 then
      if 0 ≤ e then
        let r := f.mul (powerOfTen e.toNat)
        if r.isInfinite then none else some r
      else some (f.div (powerOfTen e.natAbs))
    else if f.isZero then some f
    else if 0 ≤ e then none
    else scaleDecimal steps (f.div (powerOfTen 308)) (e + 308)

/-- `± digits · 10^e` by repeated scaling; `none` when out of range. -/
def ofDecimalScaled (negative : Bool) (digits : Nat) (e : Int) : Option Binary64 :=
  (scaleDecimal 4 (ofRatio false digits 1) e).map fun f => if negative then f.negate else f

/-! ## The shortest decimal that reads back -/

/-- `⌊log₁₀ (num / den)⌋` for positive arguments: an estimate from the binary logarithm,
then at most one step either way. -/
def floorLog10 (num den : Nat) : Int :=
  let guess : Int := Int.fdiv (floorLog2 num den * 30103) 100000
  let reaches (k : Int) : Bool :=
    if 0 ≤ k then den * pow10 k.toNat ≤ num else den ≤ num * pow10 (-k).toNat
  if reaches (guess + 1) then guess + 1 else if reaches guess then guess else guess - 1

/-- The decimals that read back as a positive double: its value and the ends of the interval
that rounds to it, each over the one denominator `den`. -/
structure Interval where
  low : Nat
  value : Nat
  high : Nat
  den : Nat
  /-- Whether the two ends round to the double as well. -/
  closed : Bool

def interval (x : Binary64) : Interval :=
  let m := x.significand
  let below := if m = pow2 52 ∧ -1074 < x.exponent then 1 else 2
  let unit := scaleTwo 1 (x.exponent - 2)
  { low := (4 * m - below) * unit.1, value := 4 * m * unit.1, high := (4 * m + 2) * unit.1,
    den := unit.2, closed := m % 2 = 0 }

def Interval.holds (i : Interval) (num den : Nat) : Bool :=
  if i.closed then i.low * den ≤ num * i.den && num * i.den ≤ i.high * den
  else i.low * den < num * i.den && num * i.den < i.high * den

/-- The point nearest to the value on the grid of multiples of `10^g`, if one of the value's
two neighbours on it reads back. -/
def Interval.onGrid? (i : Interval) (g : Int) : Option Nat :=
  let (mul, div) : Nat × Nat := if 0 ≤ g then (pow10 g.toNat, 1) else (1, pow10 (-g).toNat)
  let num := i.value * div
  let den := i.den * mul
  let d := num / den
  let down := i.holds (d * mul) div
  let up := i.holds ((d + 1) * mul) div
  if down && up then some (if (2 * d + 1) * den < 2 * num then d + 1 else d)
  else if down then some d
  else if up then some (d + 1)
  else none

/-- Tries grids of one digit more each time. -/
def Interval.shortestFrom (i : Interval) (lead : Int) : (digits tries : Nat) → Nat × Int
  | _, 0 => (i.value / i.den, 0)
  | digits, tries + 1 =>
    let g := lead + 1 - (digits : Int)
    match i.onGrid? g with
    | some d => (d, g)
    | none => i.shortestFrom lead (digits + 1) tries

/-- Strips the zeros at the end of the digits. -/
def stripZeros : (fuel : Nat) → Nat × Int → Nat × Int
  | 0, p => p
  | fuel + 1, (d, g) => if d ≠ 0 ∧ d % 10 = 0 then stripZeros fuel (d / 10, g + 1) else (d, g)

/-- Digits `d` and exponent `g` with `d · 10^g` the nearest of the shortest decimals that read
back as the absolute value of the finite double. -/
def shortest (x : Binary64) : Nat × Int :=
  if x.isZero then (0, 0)
  else
    let i := x.interval
    stripZeros 18 (i.shortestFrom (floorLog10 i.value i.den) 1 17)

def digitsText (n : Nat) : List Char := Nat.toDigits 10 n

/-- Positional digits of `d · 10^g`, with at least `places` digits after the point. -/
def positional (d : Nat) (g : Int) (keepPoint : Bool) : String :=
  let ds := digitsText d
  if 0 ≤ g then
    String.ofList (ds ++ List.replicate g.toNat '0') ++ (if keepPoint then ".0" else "")
  else
    let k := (-g).toNat
    let padded := List.replicate (k + 1 - ds.length) '0' ++ ds
    let whole := padded.take (padded.length - k)
    let fraction := padded.drop (padded.length - k)
    String.ofList (whole ++ '.' :: fraction)

/--
  JSON's text of a finite double: the shortest digits, positional while the leading digit
  stands between 10⁻⁵ and 10¹⁵, else one digit before the point and a signed exponent. A
  positional integer keeps `.0`, so that the text reads back as a double.
-/
def text (x : Binary64) : String :=
  let sign := if x.isNegative then "-" else ""
  let (d, g) := x.shortest
  let ds := digitsText d
  let lead : Int := g + ds.length - 1
  if d = 0 then sign ++ "0.0"
  else if -5 ≤ lead ∧ lead < 16 then sign ++ positional d g true
  else
    let tail := match ds with
      | c :: [] => String.ofList [c]
      | c :: rest => String.ofList (c :: '.' :: rest)
      | [] => "0"
    sign ++ tail ++ "e" ++ (if lead < 0 then "-" else "+") ++ toString lead.natAbs

/-- Plain positional text of the shortest digits, with no point in an integer. -/
def plainText (x : Binary64) : String :=
  let (d, g) := x.shortest
  (if x.isNegative then "-" else "") ++ positional d g false

end Binary64
end Workflows
