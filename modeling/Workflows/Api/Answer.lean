/-
  Workflows.Api.Answer — requests and what they are answered with.

  An answer has a status and a document, a stream of events or a bare text. A failure is a
  document that names it; its status tells the client's faults from the engine's.
-/
import Workflows.Run.Event
import Workflows.Api.Route
namespace Workflows.Api

structure Request where
  method : Method
  /-- The path, and perhaps a query. -/
  target : String
  body : String := ""

inductive Answer where
  | document (status : Nat) (body : Json)
  | stream (status : Nat) (events : List Event)
  | text (status : Nat) (text : String)

namespace Answer

def ok (body : Json) : Answer := .document 200 body

/-- An answer without content. -/
def empty (status : Nat) : Answer := .text status ""

/-- The same answer when only its head is asked for. -/
def headOnly : Answer → Answer
  | .document status _ => .empty status
  | .stream status _ => .stream status []
  | .text status _ => .empty status

def badSegment : Answer := .text 400 "Invalid URL: Invalid UTF-8 in \x60id\x60"

end Answer

/-- The status of a failure. -/
def statusOf : Failure → Nat
  | .workflowNotFound _ | .executionNotFound _ | .serverNotFound _ => 404
  | .invalid _ | .cycle _ | .planning _ => 422
  | .document _ | .misread _ _ | .yaml => 400
  | .duplicate _ => 409
  | .node _ => 503
  | _ => 500

/-- What is told of a failure besides its message. -/
def details : Failure → List (String × Json)
  | .invalid issues => [("issues", .array (issues.map Issue.toJson))]
  | .cycle nodes => [("cycle", .ofStrings nodes)]
  | _ => []

def Answer.ofFailure (f : Failure) : Answer :=
  .document (statusOf f) (.ofPairs (("error", .string f.message) :: details f))

/-- A document under a status, or a failure under its own. -/
def Answer.ofResult (status : Nat) : Except Failure Json → Answer
  | .ok body => .document status body
  | .error f => .ofFailure f

end Workflows.Api
