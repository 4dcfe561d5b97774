/-
  Workflows.Shape.Place — where in a text a fault stands.

  A text is read from the left, so a fault is found as soon as enough of the text has been
  read: the fault stands at the end of the shortest beginning of the text that has it. A list
  or an object found in the place of something else is noticed by its bracket and not read, so
  there the bracket is left out. What is missing because the text ends is missing at its end.
-/
import Workflows.Shape.ReadText
import Workflows.Text.Place
namespace Workflows.Shape

/-- Halves the range from `low` to `high`, at whose upper end `p` holds, `steps` times; if `p`
goes on to hold where it holds once, the least number with `p` is left over. -/
def leastBetween (p : Nat → Bool) : (steps low high : Nat) → Nat
  | 0, _, high => high
  | steps + 1, low, high =>
    if high ≤ low then high
    else
      let middle := (low + high) / 2
      if p middle then leastBetween p steps low middle else leastBetween p steps (middle + 1) high

def isAtEnd : DecodeError → Bool
  | .malformed .eofInList | .malformed .eofInObject | .malformed .eofInString
  | .malformed .eofInValue => true
  | _ => false

/-- Whether a fault is noticed by a bracket. -/
def isAtBracket : DecodeError → Bool
  | .mismatch (.wrongType .list _) | .mismatch (.wrongType .map _) => true
  | _ => false

/-- Where a fault of a text stands. -/
def place (shape : Shape) (text : String) (fault : DecodeError) : Text.Place :=
  let cs := text.toList
  if isAtEnd fault then .after cs
  else
    let hasFault (n : Nat) : Bool :=
      match shape.parseText (String.ofList (cs.take n)) with
      | .error f => f = fault
      | .ok _ => false
    let n := leastBetween hasFault (cs.length + 1) 0 cs.length
    .after (cs.take (if isAtBracket fault then n - 1 else n))

end Workflows.Shape
