/-
  Workflows.Shape.Conform — a JSON value against a shape.

  The members of an object are looked at in the order of their keys and the first that does
  not fit is the one reported; only then is a missing member reported, the first in the order
  of the shape. A record may also be written as the list of its members in that order.
-/
import Workflows.Shape.Basic
namespace Workflows.Shape

/-- `null`, for the payload of a choice written as an object. -/
def conformUnit (j : Json) : Except Mismatch Unit :=
  match j with
  | .null => .ok ()
  | j => .error (.wrongType (.ofJson j) "unit")

mutual
/-- The plain form of a value that has the shape. -/
def conform : Shape → Json → Except Mismatch Json
  | .any, j => .ok j
  | .text, j =>
    match j with
    | .string s => .ok (.string s)
    | j => .error (.wrongType (.ofJson j) "a string")
  | .boolean, j =>
    match j with
    | .bool b => .ok (.bool b)
    | j => .error (.wrongType (.ofJson j) "a boolean")
  | .natural bound label, j =>
    match j with
    | .integer n => checkNatural bound label n
    | j => .error (.wrongType (.ofJson j) label)
  | .double, j =>
    match j with
    | .integer n => .ok (.double (.ofInt n))
    | .double x => .ok (.double x)
    | j => .error (.wrongType (.ofJson j) "f64")
  | .time, j =>
    match j with
    | .string s => checkTime s
    | j => .error (.wrongType (.ofJson j) timeLabel)
  | .path, j =>
    match j with
    | .string s => .ok (.string s)
    | j => .error (.wrongType (.ofJson j) "path string")
  | .nullable inner, j =>
    match j with
    | .null => .ok .null
    | j => conform inner j
  | .list inner, j =>
    match j with
    | .array items => do return .array (← items.mapM fun x => conform inner x)
    | j => .error (.wrongType (.ofJson j) "a sequence")
  | .dict inner, j =>
    match j with
    | .object members => do
      return .object (← members.mapM fun (k, x) => do return (k, ← conform inner x))
    | j => .error (.wrongType (.ofJson j) "a map")
  | .oneOf choices, j =>
    match j with
    | .string s => pickName choices s
    | .object [(s, payload)] => do
      let picked ← pickName choices s
      conformUnit payload
      return picked
    | .object _ => .error (.wrongValue .map "map with a single key")
    | j => .error (.wrongType (.ofJson j) "string or map")
  | .names label, j => checkNames label j
  | .record label fields, j =>
    match j with
    | .object members => do
      let known ← members.filterMapM fun (k, x) => conformMember fields k x
      match missing? fields (Keyed.keys known) with
      | some name => throw (.missingField name)
      | none => return .object known
    | .array items => do
      let (pairs, extra) ← conformItems (recordListLabel label fields.length) 0 fields items
      if extra = 0 then return .ofPairs pairs
      else throw (.wrongLength items.length "fewer elements in array")
    | j => .error (.wrongType (.ofJson j) (recordLabel label))

/-- A member of an object, when the record knows it. -/
def conformMember : List (String × Presence × Shape) → String → Json →
    Except Mismatch (Option (String × Json))
  | [], _, _ => .ok none
  | (name, _, shape) :: rest, key, value =>
    if name = key then do return some (key, ← conform shape value)
    else conformMember rest key value

/-- The members of a record written as a list, and how many items are left over. -/
def conformItems (label : String) : (position : Nat) → List (String × Presence × Shape) →
    List Json → Except Mismatch (List (String × Json) × Nat)
  | _, [], items => .ok ([], items.length)
  | i, (_, presence, _) :: rest, [] =>
    if presence = .defaulted then conformItems label (i + 1) rest []
    else .error (.wrongLength i label)
  | i, (name, _, shape) :: rest, x :: items => do
    let value ← conform shape x
    let (pairs, extra) ← conformItems label (i + 1) rest items
    return ((name, value) :: pairs, extra)
end

end Workflows.Shape
