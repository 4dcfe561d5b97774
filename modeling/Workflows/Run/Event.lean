/-
  Workflows.Run.Event — what a run announces while it goes on.

  Announcements may be missed; the store stays the source of truth. Written as a document an
  event is an object whose member `event` says which of the four it is.
-/
import Workflows.Run.Execution
namespace Workflows

inductive Event where
  | runStarted (executionId workflowId : String)
  | nodeStarted (executionId nodeId : String)
  | nodeFinished (executionId nodeId status : String) (error : Option String)
  | runFinished (executionId status : String) (error : Option String)
deriving DecidableEq, Repr

namespace Event

open Shape (field)

def executionId : Event → String
  | .runStarted id _ | .nodeStarted id _ | .nodeFinished id _ _ _ | .runFinished id _ _ => id

/-- Whether it is the last event of its run. -/
def isFinal : Event → Bool
  | .runFinished _ _ _ => true
  | _ => false

/-- The event that tells how a run ended. -/
def ofEnded (e : Execution) : Event := .runFinished e.id e.status.text e.error

def tags : List String := ["runStarted", "nodeStarted", "nodeFinished", "runFinished"]

def tag : Event → String
  | .runStarted _ _ => "runStarted"
  | .nodeStarted _ _ => "nodeStarted"
  | .nodeFinished _ _ _ _ => "nodeFinished"
  | .runFinished _ _ _ => "runFinished"

def toJson : Event → Json
  | .runStarted id workflow =>
    .object [("event", .string "runStarted"), ("executionId", .string id),
      ("workflowId", .string workflow)]
  | .nodeStarted id node =>
    .object [("event", .string "nodeStarted"), ("executionId", .string id),
      ("nodeId", .string node)]
  | .nodeFinished id node status error =>
    .record [("error", error.map .string), ("event", some (.string "nodeFinished")),
      ("executionId", some (.string id)), ("nodeId", some (.string node)),
      ("status", some (.string status))]
  | .runFinished id status error =>
    .record [("error", error.map .string), ("event", some (.string "runFinished")),
      ("executionId", some (.string id)), ("status", some (.string status))]

/-- The members of the event of a tag, besides the tag. -/
def fields : String → List (String × Presence × Shape)
  | "runStarted" => [field "executionId" .text, field "workflowId" .text]
  | "nodeStarted" => [field "executionId" .text, field "nodeId" .text]
  | "nodeFinished" =>
    [field "executionId" .text, field "nodeId" .text, field "status" .text,
      ("error", .optional, .nullable .text)]
  | _ => [field "executionId" .text, field "status" .text, ("error", .optional, .nullable .text)]

/-- The name of an event's members as a record, in complaints. -/
def recordLabel : String → String
  | "runStarted" => "struct variant ExecutionEvent::RunStarted"
  | "nodeStarted" => "struct variant ExecutionEvent::NodeStarted"
  | "nodeFinished" => "struct variant ExecutionEvent::NodeFinished"
  | _ => "struct variant ExecutionEvent::RunFinished"

def ofPlain (tag : String) (j : Json) : Event :=
  let id := (j.member "executionId").textOf
  match tag with
  | "runStarted" => .runStarted id (j.member "workflowId").textOf
  | "nodeStarted" => .nodeStarted id (j.member "nodeId").textOf
  | "nodeFinished" =>
    .nodeFinished id (j.member "nodeId").textOf (j.member "status").textOf (j.text? "error")
  | _ => .runFinished id (j.member "status").textOf (j.text? "error")

def readTag (j : Json) : Except Mismatch String :=
  match j with
  | .string s => if tags.contains s then .ok s else .error (.unknownVariant s tags)
  | j => .error (.wrongType (.ofJson j) "variant identifier")

/-- The members of an event given as a list, the tag first. -/
def listShape (tag : String) (items : List Json) : Except Mismatch Json := do
  let label := s!"{recordLabel tag} with {(fields tag).length} elements"
  let (pairs, extra) ← Shape.conformItems label 0 (fields tag) items
  if extra = 0 then return .ofPairs pairs
  else throw (.wrongLength items.length s!"{(fields tag).length} elements in sequence")

/-- The event a document holds. -/
def ofJson (j : Json) : Except Mismatch Event :=
  match j with
  | .object members =>
    match Keyed.get? members "event" with
    | none => .error (.missingField "event")
    | some t => do
      let tag ← readTag t
      let plain ← (Shape.record "" (fields tag)).conform (.object (Keyed.erase members "event"))
      return ofPlain tag plain
  | .array [] => .error (.missingField "event")
  | .array (t :: items) => do
    let tag ← readTag t
    return ofPlain tag (← listShape tag items)
  | j => .error (.wrongType (.ofJson j) "internally tagged enum ExecutionEvent")

end Event
end Workflows
