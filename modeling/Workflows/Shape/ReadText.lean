/-
  Workflows.Shape.ReadText — JSON text against a shape, read from the left.

  Faults of the text and of its shape are reported in the order in which they stand. A member
  that the shape names may stand only once; any other member is passed over unread.
-/
import Workflows.Shape.Conform
import Workflows.Json.Skip
namespace Workflows.Shape

open Json (SyntaxError)

/-- What a reader of text gives: a value and the characters after it. -/
abbrev TextReader := List Char → Except DecodeError (Json × List Char)

def syntactic {α : Type} : Except SyntaxError α → Except DecodeError α
  | .ok a => .ok a
  | .error e => .error (.malformed e)

def shaped {α : Type} : Except Mismatch α → Except DecodeError α
  | .ok a => .ok a
  | .error e => .error (.mismatch e)

/-- Complains about whatever stands there. -/
def refuse (expected : String) (cs : List Char) : Except DecodeError (Json × List Char) :=
  match Json.readHead cs with
  | .error e => .error (.malformed e)
  | .ok (.scalar j, _) => .error (.mismatch (.wrongType (.ofJson j) expected))
  | .ok (.list, _) => .error (.mismatch (.wrongType .list expected))
  | .ok (.object, _) => .error (.mismatch (.wrongType .map expected))

/-- Reads a scalar and checks it by `check`. -/
def readScalar (check : Json → Except Mismatch Json) (expected : String) : TextReader := fun cs => do
  match ← syntactic (Json.readHead cs) with
  | (.scalar j, rest) => return (← shaped (check j), rest)
  | (.list, _) => throw (.mismatch (.wrongType .list expected))
  | (.object, _) => throw (.mismatch (.wrongType .map expected))

/-- Opens a level of nesting. -/
def enter (room : Nat) : Except DecodeError Nat :=
  if room = 0 then .error (.malformed .tooDeep) else .ok (room - 1)

/-- Reads the items of a list up to and with its closing bracket. -/
def readItems (item : TextReader) : (fuel : Nat) → (first : Bool) → List Char →
    Except DecodeError (List Json × List Char)
  | 0, _, _ => .error (.malformed .eofInList)
  | fuel + 1, first, cs => do
    match ← syntactic (Json.nextItem first cs) with
    | (false, rest) => return ([], rest.drop 1)
    | (true, rest) =>
      let (x, rest) ← item rest
      let (xs, rest) ← readItems item fuel false rest
      return (x :: xs, rest)

/-- Reads the members of an object up to its closing brace, which stays. -/
def readMembers (member : (before : Keyed Json) → String → List Char →
      Except DecodeError (Keyed Json × List Char)) :
    (fuel : Nat) → (first : Bool) → (before : Keyed Json) → List Char →
    Except DecodeError (Keyed Json × List Char)
  | 0, _, _, _ => .error (.malformed .eofInObject)
  | fuel + 1, first, before, cs => do
    match ← syntactic (Json.nextKey first cs) with
    | (false, rest) => return (before, rest)
    | (true, rest) =>
      let (key, rest) ← syntactic (Json.readString rest)
      let (after, rest) ← member before key rest
      readMembers member fuel false after rest

/-- Reads a value after the colon that comes first. -/
def afterColon (reader : TextReader) : TextReader := fun cs => do
  reader (← syntactic (Json.readColon cs))

/-- Reads a name of a choice: a string, or an object whose one key it is. -/
def readChoice (choices : List String) (room : Nat) : TextReader := fun cs => do
  match Json.skipBlank cs with
  | '"' :: rest =>
    let (s, rest) ← syntactic (Json.readString rest)
    return (← shaped (pickName choices s), rest)
  | '{' :: rest =>
    let _ ← enter room
    let (name, rest) ← readScalar (fun j => match j with
      | .string s => pickName choices s
      | j => .error (.wrongType (.ofJson j) "variant identifier")) "variant identifier" rest
    let rest ← syntactic (Json.readColon rest)
    let (_, rest) ← readScalar (fun j => do conformUnit j; return j) "unit" rest
    match Json.skipBlank rest with
    | '}' :: rest => return (name, rest)
    | [] => throw (.malformed .eofInObject)
    | _ => throw (.malformed .expectedValue)
  | [] => throw (.malformed .eofInValue)
  | _ => throw (.malformed .expectedValue)

mutual
/-- The plain form of a value of the shape, read from the left. `fuel` bounds the steps of each
list and object (the length of the text suffices); `room` is the number of levels that may
still be opened. -/
def readText (fuel : Nat) : Shape → (room : Nat) → TextReader
  | .any, room, cs => syntactic (Json.readValue fuel room cs)
  | .text, _, cs => readScalar (conform .text) "a string" cs
  | .boolean, _, cs => readScalar (conform .boolean) "a boolean" cs
  | .natural bound label, _, cs => readScalar (conform (.natural bound label)) label cs
  | .double, _, cs => readScalar (conform .double) "f64" cs
  | .time, _, cs => readScalar (conform .time) timeLabel cs
  | .path, _, cs => readScalar (conform .path) "path string" cs
  | .nullable inner, room, cs =>
    match Json.skipBlank cs with
    | 'n' :: rest => do return (.null, ← syntactic (Json.readWord ['u', 'l', 'l'] rest))
    | cs => readText fuel inner room cs
  | .list inner, room, cs =>
    match Json.skipBlank cs with
    | '[' :: rest => do
      let room ← enter room
      let (items, rest) ← readItems (readText fuel inner room) fuel true rest
      return (.array items, rest)
    | cs => refuse "a sequence" cs
  | .dict inner, room, cs =>
    match Json.skipBlank cs with
    | '{' :: rest => do
      let room ← enter room
      let (members, rest) ← readMembers (fun before key rest => do
        let (x, rest) ← afterColon (readText fuel inner room) rest
        return (before.insert key x, rest)) fuel true [] rest
      return (.object members, rest.drop 1)
    | cs => refuse "a map" cs
  | .oneOf choices, room, cs => readChoice choices room cs
  | .names label, room, cs => do
    let (j, rest) ← syntactic (Json.readValue fuel room cs)
    return (← shaped (checkNames label j), rest)
  | .record label fields, room, cs =>
    match Json.skipBlank cs with
    | '{' :: rest => do
      let room ← enter room
      let (members, rest) ← readMembers (readMember fuel fields room) fuel true [] rest
      match missing? fields (Keyed.keys members) with
      | some name => throw (.mismatch (.missingField name))
      | none => return (.object members, rest.drop 1)
    | '[' :: rest => do
      let room ← enter room
      let (members, rest) ←
        readFields fuel (recordListLabel label fields.length) 0 fields room true rest
      return (.ofPairs members, ← syntactic (Json.endList rest))
    | cs => refuse (recordLabel label) cs

/-- Reads the value of a member, if the record knows it, and passes over it otherwise. -/
def readMember (fuel : Nat) : List (String × Presence × Shape) → (room : Nat) →
    (before : Keyed Json) → String → List Char → Except DecodeError (Keyed Json × List Char)
  | [], _, before, _, cs => do
    return (before, ← syntactic (Json.skipValue fuel (← syntactic (Json.readColon cs))))
  | (name, _, shape) :: others, room, before, key, cs =>
    if name = key then
      if before.contains key then .error (.mismatch (.duplicateField key))
      else do
        let (x, rest) ← afterColon (readText fuel shape room) cs
        return (before.insert key x, rest)
    else readMember fuel others room before key cs

/-- Reads the members of a record written as a list, up to its closing bracket. -/
def readFields (fuel : Nat) (label : String) : (position : Nat) →
    List (String × Presence × Shape) → (room : Nat) → (first : Bool) → List Char →
    Except DecodeError (List (String × Json) × List Char)
  | _, [], _, _, cs => .ok ([], cs)
  | i, (name, presence, shape) :: others, room, first, cs => do
    match ← syntactic (Json.nextItem first cs) with
    | (false, rest) =>
      if presence = .defaulted then readFields fuel label (i + 1) others room first rest
      else throw (.mismatch (.wrongLength i label))
    | (true, rest) =>
      let (x, rest) ← readText fuel shape room rest
      let (xs, rest) ← readFields fuel label (i + 1) others room false rest
      return ((name, x) :: xs, rest)
end

/-- The plain form of a text that is one document of the shape. -/
def parseText (shape : Shape) (text : String) : Except DecodeError Json := do
  let cs := text.toList
  let (j, rest) ← readText (2 * cs.length + 1) shape Json.depthLimit cs
  syntactic (Json.endDocument rest)
  return j

end Workflows.Shape
