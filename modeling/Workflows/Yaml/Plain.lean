/-
  Workflows.Yaml.Plain — what a plain scalar means.

  A plain scalar is null, a truth value, an integer (decimal, or after `0x`, `0o`, `0b`), a
  double, or else a string. Digits after a leading zero are a string.
-/
import Workflows.Json.Basic
namespace Workflows.Yaml

def isNullText (s : String) : Bool := s = "null" || s = "Null" || s = "NULL" || s = "~"

def boolText? (s : String) : Option Bool :=
  if s = "true" ∨ s = "True" ∨ s = "TRUE" then some true
  else if s = "false" ∨ s = "False" ∨ s = "FALSE" then some false
  else none

/-- Whether a number would begin with a superfluous zero. -/
def hasLeadingZero (s : String) : Bool :=
  let cs := match s.toList with
    | '-' :: rest | '+' :: rest => rest
    | cs => cs
  match cs with
  | '0' :: d :: rest => (d :: rest).all Char.isDigit
  | _ => false

def digitOf? (radix : Nat) (c : Char) : Option Nat :=
  let d := if c.isDigit then some (c.toNat - 48)
    else if 'a' ≤ c ∧ c ≤ 'f' then some (c.toNat - 87)
    else if 'A' ≤ c ∧ c ≤ 'F' then some (c.toNat - 55)
    else none
  d.filter (· < radix)

def natOfDigits? (radix : Nat) (cs : List Char) : Option Nat :=
  if cs.isEmpty then none else cs.foldlM (fun n c => (digitOf? radix c).map (n * radix + ·)) 0

/-- The digits after the mark of another radix. -/
def radixNat? (cs : List Char) : Option Nat :=
  match cs with
  | '0' :: 'x' :: rest => natOfDigits? 16 rest
  | '0' :: 'o' :: rest => natOfDigits? 8 rest
  | '0' :: 'b' :: rest => natOfDigits? 2 rest
  | _ => none

/-- An integer of any size. -/
def intText? (s : String) : Option Int :=
  let cs := s.toList
  let (negative, ds) : Bool × List Char := match cs with
    | '-' :: rest => (true, rest)
    | '+' :: rest => (false, rest)
    | cs => (false, cs)
  let n? := match radixNat? ds with
    | some n => some n
    | none => if hasLeadingZero s then none else natOfDigits? 10 ds
  n?.map fun n => if negative then -(n : Int) else n

/-- An integer that is written without a minus. -/
def unsignedText? (s : String) : Option Int := if s.startsWith "-" then none else intText? s

/-- The double of a decimal: digits with a point among them or not, and an exponent or not. -/
def decimal? (cs : List Char) : Option Binary64 :=
  let (negative, cs) : Bool × List Char := match cs with
    | '-' :: rest => (true, rest)
    | '+' :: rest => (false, rest)
    | cs => (false, cs)
  let whole := cs.takeWhile Char.isDigit
  let rest := cs.dropWhile Char.isDigit
  let (fraction, rest) : List Char × List Char := match rest with
    | '.' :: rest => (rest.takeWhile Char.isDigit, rest.dropWhile Char.isDigit)
    | rest => ([], rest)
  if whole.isEmpty && fraction.isEmpty then none
  else
    let finish (e : Int) : Option Binary64 :=
      (natOfDigits? 10 (whole ++ fraction)).map fun n =>
        .ofDecimal negative n (e - (fraction.length : Int))
    match rest with
    | [] => finish 0
    | x :: rest =>
      if x = 'e' ∨ x = 'E' then
        match rest with
        | '-' :: ds => (natOfDigits? 10 ds).bind fun n => finish (-(n : Int))
        | '+' :: ds => (natOfDigits? 10 ds).bind fun n => finish n
        | ds => (natOfDigits? 10 ds).bind fun n => finish n
      else none

def infinity (negative : Bool) : Binary64 :=
  ⟨(Binary64.signBit negative + Binary64.infinityBits).toUInt64⟩

def notANumber : Binary64 := ⟨(Binary64.infinityBits + pow2 51).toUInt64⟩

/-- A double; a decimal too large for one is none. -/
def doubleText? (s : String) : Option Binary64 :=
  let cs := s.toList
  let unsigned : List Char := match cs with
    | '+' :: rest => rest
    | cs => cs
  if unsigned = ".inf".toList ∨ unsigned = ".Inf".toList ∨ unsigned = ".INF".toList then
    some (infinity false)
  else if s = "-.inf" ∨ s = "-.Inf" ∨ s = "-.INF" then some (infinity true)
  else if s = ".nan" ∨ s = ".NaN" ∨ s = ".NAN" then some notANumber
  else
    match cs with
    | '+' :: '+' :: _ | '+' :: '-' :: _ => none
    | _ => (decimal? cs).filter Binary64.isFinite

/-- The JSON form of a double: `null` if it is not finite. -/
def jsonOfDouble (x : Binary64) : Json := if x.isFinite then .double x else .null

/-- The JSON form of an integer, if 64 bits hold it. -/
def jsonOfInt? (n : Int) : Option Json :=
  if -(pow2 63) ≤ n ∧ n < pow2 64 then some (.integer n) else none

/-- Whether 128 bits hold an integer. -/
def fitsTwoWords (n : Int) : Bool := -(pow2 127) ≤ n && n < pow2 128

/-- What a plain scalar means; nothing if it is an integer too large for 64 bits (one too large
for 128 bits is a double instead). -/
def plainJson? (s : String) : Option Json :=
  if s.isEmpty || isNullText s then some .null
  else
    match boolText? s with
    | some b => some (.bool b)
    | none =>
      match intText? s with
      | some n =>
        if fitsTwoWords n then jsonOfInt? n
        else
          match doubleText? s with
          | some x => some (jsonOfDouble x)
          | none => some (.string s)
      | none =>
        if hasLeadingZero s then some (.string s)
        else
          match doubleText? s with
          | some x => some (jsonOfDouble x)
          | none => some (.string s)

end Workflows.Yaml
