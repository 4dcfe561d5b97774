/-
  Workflows.Shape.Basic — what a document must look like.

  A `Shape` describes the documents that a reader accepts. One description serves three
  sources: JSON values (`Shape.conform`), JSON text read from the left (`Shape.readText`) and
  YAML (`Shape.conformYaml`). Each gives the document in one plain form, from which a record
  is then taken: unknown members are gone, a record written as a list has become an object,
  and the numbers of a `double` are doubles.
-/
import Workflows.Json.Reader
import Workflows.Text.Quoted
import Workflows.Time.Rfc3339
namespace Workflows

/-- What a member that is not there means. An `optional` one may be left out of an object but
not of a record written as a list; a `defaulted` one may be left out of both. -/
inductive Presence where
  | required | optional | defaulted
deriving DecidableEq, Repr

/-- A description of documents. -/
inductive Shape where
  | any
  | text
  | boolean
  /-- An integer from 0 to `bound`; `label` names the type in complaints. -/
  | natural (bound : Nat) (label : String)
  | double
  | time
  | path
  /-- `null`, or the inner shape. -/
  | nullable (inner : Shape)
  | list (inner : Shape)
  | dict (inner : Shape)
  /-- One of some names. -/
  | oneOf (names : List String)
  /-- A list of names, or an object keyed by name. -/
  | names (label : String)
  | record (label : String) (fields : List (String × Presence × Shape))

/-- What stands in a document where something else was expected. -/
inductive Found where
  | null | boolean (b : Bool) | integer (n : Int) | double (x : Binary64) | string (s : String)
  | list | map
deriving DecidableEq

def Found.describe : Found → String
  | .null => "null"
  | .boolean b => s!"boolean \x60{b}\x60"
  | .integer n => s!"integer \x60{n}\x60"
  | .double x => s!"floating point \x60{x.text}\x60"
  | .string s => "string " ++ Text.quoted s
  | .list => "sequence"
  | .map => "map"

/-- What a JSON value is, in complaints. -/
def Found.ofJson : Json → Found
  | .null => .null
  | .bool b => .boolean b
  | .integer n => .integer n
  | .double x => .double x
  | .string s => .string s
  | .array _ => .list
  | .object _ => .map

/-- Why a document does not have the shape. -/
inductive Mismatch where
  | wrongType (found : Found) (expected : String)
  | wrongValue (found : Found) (expected : String)
  | wrongLength (length : Nat) (expected : String)
  | unknownVariant (name : String) (known : List String)
  | missingField (name : String)
  | duplicateField (name : String)
  | noAlternative (label : String)
  | badTime (cause : TimeError)
deriving DecidableEq

def ticked (s : String) : String := "\x60" ++ s ++ "\x60"

/-- The alternatives of a choice, in words. -/
def choiceText : List String → String
  | [] => "there are no variants"
  | [a] => "expected " ++ ticked a
  | [a, b] => "expected " ++ ticked a ++ " or " ++ ticked b
  | names => "expected one of " ++ ", ".intercalate (names.map ticked)

def Mismatch.message : Mismatch → String
  | .wrongType found expected => s!"invalid type: {found.describe}, expected {expected}"
  | .wrongValue found expected => s!"invalid value: {found.describe}, expected {expected}"
  | .wrongLength n expected => s!"invalid length {n}, expected {expected}"
  | .unknownVariant name known => s!"unknown variant {ticked name}, {choiceText known}"
  | .missingField name => s!"missing field {ticked name}"
  | .duplicateField name => s!"duplicate field {ticked name}"
  | .noAlternative label => s!"data did not match any variant of untagged enum {label}"
  | .badTime cause => cause.message

/-- Why a document could not be decoded. -/
inductive DecodeError where
  | malformed (cause : Json.SyntaxError)
  | mismatch (cause : Mismatch)
deriving DecidableEq

def DecodeError.message : DecodeError → String
  | .malformed cause => cause.message
  | .mismatch cause => cause.message

/-- How a record is named in complaints. -/
def recordLabel (label : String) : String := "struct " ++ label

/-- How a record of some fields written as a list is named in complaints. -/
def recordListLabel (label : String) (count : Nat) : String :=
  s!"struct {label} with {count} element" ++ (if count = 1 then "" else "s")

namespace Shape

def field (name : String) (shape : Shape) : String × Presence × Shape := (name, .required, shape)

/-- A member that may be missing or `null`, and may be left out of a list as well. -/
def fieldOpt (name : String) (shape : Shape) : String × Presence × Shape :=
  (name, .defaulted, .nullable shape)

def fieldDef (name : String) (shape : Shape) : String × Presence × Shape :=
  (name, .defaulted, shape)

def u16 : Shape := .natural (pow2 16 - 1) "u16"
def u32 : Shape := .natural (pow2 32 - 1) "u32"
def u64 : Shape := .natural (pow2 64 - 1) "u64"
def usize : Shape := .natural (pow2 64 - 1) "usize"

def timeLabel : String := "an RFC 3339 formatted date and time string"

/-- The first field that must be there and is not among the keys. -/
def missing? (fields : List (String × Presence × Shape)) (keys : List String) : Option String :=
  (fields.find? fun f => f.2.1 = .required && !keys.contains f.1).map (·.1)

/-- A name of a choice. -/
def pickName (names : List String) (name : String) : Except Mismatch Json :=
  if names.contains name then .ok (.string name) else .error (.unknownVariant name names)

def checkTime (s : String) : Except Mismatch Json :=
  match Instant.parse s with
  | .ok _ => .ok (.string s)
  | .error e => .error (.badTime e)

/-- An integer within bounds. -/
def checkNatural (bound : Nat) (label : String) (n : Int) : Except Mismatch Json :=
  if 0 ≤ n ∧ n ≤ bound then .ok (.integer n) else .error (.wrongValue (.integer n) label)

/-- A list of strings, or any object. -/
def checkNames (label : String) (j : Json) : Except Mismatch Json :=
  match j with
  | .array items =>
    if items.all fun x => x.string?.isSome then .ok j else .error (.noAlternative label)
  | .object _ => .ok j
  | _ => .error (.noAlternative label)

end Shape
end Workflows
