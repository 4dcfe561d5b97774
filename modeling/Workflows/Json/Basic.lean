/-
  Workflows.Json.Basic — JSON values.

  Objects are lists of pairs in ascending key order with distinct keys (`Keyed`): whoever
  builds one from pairs uses `Json.ofPairs`. A number is an integer or a double and the two
  are never equal; integers reach from -2⁶³ to 2⁶⁴ - 1, everything else is a double.
-/
import Workflows.Numeric.Binary64
import Workflows.Data.Keyed
namespace Workflows

/-- A JSON value. -/
inductive Json where
  | null
  | bool (value : Bool)
  | integer (value : Int)
  | double (value : Binary64)
  | string (value : String)
  | array (items : List Json)
  | object (members : List (String × Json))
deriving Inhabited, Repr

namespace Json

mutual
/-- Equality of values, decided. -/
def decEq : (a b : Json) → Decidable (a = b)
  | .null, .null => .isTrue rfl
  | .bool a, .bool b => decidable_of_iff (a = b) (by simp)
  | .integer a, .integer b => decidable_of_iff (a = b) (by simp)
  | .double a, .double b => decidable_of_iff (a = b) (by simp)
  | .string a, .string b => decidable_of_iff (a = b) (by simp)
  | .array a, .array b =>
    match decEqItems a b with
    | .isTrue h => .isTrue (by rw [h])
    | .isFalse h => .isFalse (by simpa using h)
  | .object a, .object b =>
    match decEqMembers a b with
    | .isTrue h => .isTrue (by rw [h])
    | .isFalse h => .isFalse (by simpa using h)
  | .null, .bool _ | .null, .integer _ | .null, .double _ | .null, .string _ | .null, .array _
  | .null, .object _ | .bool _, .null | .bool _, .integer _ | .bool _, .double _
  | .bool _, .string _ | .bool _, .array _ | .bool _, .object _ | .integer _, .null
  | .integer _, .bool _ | .integer _, .double _ | .integer _, .string _ | .integer _, .array _
  | .integer _, .object _ | .double _, .null | .double _, .bool _ | .double _, .integer _
  | .double _, .string _ | .double _, .array _ | .double _, .object _ | .string _, .null
  | .string _, .bool _ | .string _, .integer _ | .string _, .double _ | .string _, .array _
  | .string _, .object _ | .array _, .null | .array _, .bool _ | .array _, .integer _
  | .array _, .double _ | .array _, .string _ | .array _, .object _ | .object _, .null
  | .object _, .bool _ | .object _, .integer _ | .object _, .double _ | .object _, .string _
  | .object _, .array _ => .isFalse (by simp)

def decEqItems : (a b : List Json) → Decidable (a = b)
  | [], [] => .isTrue rfl
  | [], _ :: _ => .isFalse (by simp)
  | _ :: _, [] => .isFalse (by simp)
  | x :: xs, y :: ys =>
    match decEq x y, decEqItems xs ys with
    | .isTrue h, .isTrue hs => .isTrue (by rw [h, hs])
    | .isFalse h, _ => .isFalse (by simp [h])
    | _, .isFalse h => .isFalse (by simp [h])

def decEqMembers : (a b : List (String × Json)) → Decidable (a = b)
  | [], [] => .isTrue rfl
  | [], _ :: _ => .isFalse (by simp)
  | _ :: _, [] => .isFalse (by simp)
  | (j, x) :: xs, (k, y) :: ys =>
    if hk : j = k then
      match decEq x y, decEqMembers xs ys with
      | .isTrue h, .isTrue hs => .isTrue (by rw [hk, h, hs])
      | .isFalse h, _ => .isFalse (by simp [h])
      | _, .isFalse h => .isFalse (by simp [h])
    else .isFalse (by simp [hk])
end

instance : DecidableEq Json := decEq

/-- The object of the pairs, the last value of a key being kept. -/
def ofPairs (pairs : List (String × Json)) : Json := .object (Keyed.ofList pairs)

def empty : Json := .object []

/-- The object of the members that are there; they are listed in ascending order of keys. -/
def record (members : List (String × Option Json)) : Json :=
  .object (members.filterMap fun (k, v) => v.map (k, ·))

def ofNat (n : Nat) : Json := .integer n

def ofStrings (names : List String) : Json := .array (names.map .string)

def ofOption {α : Type} (f : α → Json) : Option α → Json
  | none => .null
  | some a => f a

/-- The value of an object's member. -/
def member? (j : Json) (key : String) : Option Json :=
  match j with
  | .object members => Keyed.get? members key
  | _ => none

/-- The value of an object's member, `null` when there is none. -/
def member (j : Json) (key : String) : Json := (j.member? key).getD .null

def string? : Json → Option String
  | .string s => some s
  | _ => none

def bool? : Json → Option Bool
  | .bool b => some b
  | _ => none

def integer? : Json → Option Int
  | .integer n => some n
  | _ => none

/-- The value of an integer that is not negative. -/
def natural? : Json → Option Nat
  | .integer n => if 0 ≤ n then some n.toNat else none
  | _ => none

def items? : Json → Option (List Json)
  | .array xs => some xs
  | _ => none

def members? : Json → Option (Keyed Json)
  | .object ms => some ms
  | _ => none

/-- The text of a string, else nothing. -/
def textOf (j : Json) : String := j.string?.getD ""

def natOf (j : Json) : Nat := j.natural?.getD 0

def itemsOf (j : Json) : List Json := j.items?.getD []

def membersOf (j : Json) : Keyed Json := j.members?.getD []

/-- The inner value unless it is `null`. -/
def unlessNull? : Json → Option Json
  | .null => none
  | j => some j

def isNull : Json → Bool
  | .null => true
  | _ => false

mutual
/-- How deeply arrays and objects are nested; a scalar has depth 0. -/
def depth : Json → Nat
  | .array items => depthItems items + 1
  | .object members => depthMembers members + 1
  | _ => 0

def depthItems : List Json → Nat
  | [] => 0
  | x :: xs => max x.depth (depthItems xs)

def depthMembers : List (String × Json) → Nat
  | [] => 0
  | (_, x) :: xs => max x.depth (depthMembers xs)
end

end Json
end Workflows
