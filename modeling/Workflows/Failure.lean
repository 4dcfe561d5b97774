/-
  Workflows.Failure — everything that can go wrong, as causes.

  A `NodeError` is the failure of one node: it is recorded with the node and never stops other
  branches. An `Issue` is a finding about a definition. A `Failure` is what an operation of the
  engine reports; `Failure.message` words it.
-/
import Workflows.Definition.Codec
import Workflows.Files.Tree
import Workflows.Text.Place
namespace Workflows

open Shape (field fieldDef)

/-! ## Failures of one node -/

inductive NodeErrorKind where
  | failed | timeout | canceled | invalidInput
deriving DecidableEq, Repr

/-- Why a node failed. -/
structure NodeError where
  kind : NodeErrorKind
  message : String
deriving DecidableEq, Repr

/-- Milliseconds as seconds, in the fewest digits: whole seconds and the rest are added as
doubles. -/
def secondsText (millis : Nat) : String :=
  ((Binary64.ofRatio false (millis / 1000) 1).addNonneg
    ((Binary64.ofRatio false (millis % 1000 * 1000000) 1).div
      (Binary64.ofRatio false 1000000000 1))).plainText

namespace NodeError

def failed (message : String) : NodeError := ⟨.failed, message⟩

def invalidInput (message : String) : NodeError := ⟨.invalidInput, message⟩

def canceled : NodeError := ⟨.canceled, "Node canceled"⟩

def timedOut (millis : Nat) : NodeError :=
  ⟨.timeout, s!"Node timed out after {secondsText millis}s"⟩

end NodeError

def NodeErrorKind.text : NodeErrorKind → String
  | .failed => "failed"
  | .timeout => "timeout"
  | .canceled => "canceled"
  | .invalidInput => "invalidInput"

def NodeErrorKind.ofText : String → NodeErrorKind
  | "timeout" => .timeout
  | "canceled" => .canceled
  | "invalidInput" => .invalidInput
  | _ => .failed

namespace NodeError

def toJson (e : NodeError) : Json :=
  .object [("kind", .string e.kind.text), ("message", .string e.message)]

def shape : Shape :=
  .record "NodeError" [field "kind" (.oneOf ["failed", "timeout", "canceled", "invalidInput"]),
    field "message" .text]

def ofPlain (j : Json) : NodeError :=
  ⟨.ofText (j.member "kind").textOf, (j.member "message").textOf⟩

def ofJson (j : Json) : Except Mismatch NodeError := (shape.conform j).map ofPlain

end NodeError

/-! ## Findings about a definition -/

/-- A finding about a node, a connection or the whole definition. -/
structure Issue where
  nodeId : Option String := none
  connectionId : Option String := none
  message : String
deriving DecidableEq, Repr

namespace Issue

def ofNode (id message : String) : Issue := { nodeId := some id, message }

def ofConnection (id message : String) : Issue := { connectionId := some id, message }

def text (i : Issue) : String :=
  match i.nodeId, i.connectionId with
  | some node, _ => s!"node '{node}': {i.message}"
  | none, some connection => s!"edge '{connection}': {i.message}"
  | none, none => i.message

def toJson (i : Issue) : Json :=
  .record [("edgeId", i.connectionId.map .string), ("message", some (.string i.message)),
    ("nodeId", i.nodeId.map .string)]

def shape : Shape :=
  .record "ValidationIssue" [("nodeId", .optional, .nullable .text),
    ("edgeId", .optional, .nullable .text), field "message" .text]

def ofPlain (j : Json) : Issue :=
  ⟨j.text? "nodeId", j.text? "edgeId", (j.member "message").textOf⟩

def ofJson (j : Json) : Except Mismatch Issue := (shape.conform j).map ofPlain

end Issue

/-! ## Failures of operations -/

/-- Why an operation failed. -/
inductive Failure where
  /-- The definition is not well formed. -/
  | invalid (issues : List Issue)
  /-- The connections go round in a circle; the nodes of one, in order. -/
  | cycle (nodes : List String)
  | planning (message : String)
  | node (error : NodeError)
  | workflowNotFound (id : String)
  | executionNotFound (id : String)
  | serverNotFound (name : String)
  /-- The storage behind a table cannot do it. -/
  | database
  | corrupt (message : String)
  | duplicate (what : String)
  | config (message : String)
  | io (cause : FileError)
  | document (cause : DecodeError)
  /-- A file does not hold the document it should. -/
  | misread (cause : DecodeError) (place : Text.Place)
  | yaml
  | http
  /-- The arithmetic of dates went out of range. -/
  | overflow
  | other (message : String)
deriving DecidableEq

def cycleText (nodes : List String) : String :=
  "Circular dependency detected: " ++ " -> ".intercalate nodes

namespace Failure

def message : Failure → String
  | .invalid issues => "Invalid workflow: " ++ "; ".intercalate (issues.map Issue.text)
  | .cycle nodes => cycleText nodes
  | .planning m => "Planning error: " ++ m
  | .node e => e.message
  | .workflowNotFound id => s!"Workflow '{id}' not found"
  | .executionNotFound id => s!"Execution '{id}' not found"
  | .serverNotFound name => s!"MCP server '{name}' not found"
  | .database => "Database error"
  | .corrupt m => "Stored record is corrupt: " ++ m
  | .duplicate what => what ++ " already exists"
  | .config m => "Configuration error: " ++ m
  | .io cause => cause.message
  | .document cause => cause.message
  | .misread cause place => s!"{cause.message} at line {place.line} column {place.column}"
  | .yaml => "YAML error"
  | .http => "HTTP error"
  | .overflow => "date out of range"
  | .other m => m

/-- Whether the failure rejects a definition before any node runs. -/
def isPreRun : Failure → Bool
  | .invalid _ | .cycle _ | .planning _ => true
  | _ => false

end Failure
end Workflows
