/-
  Workflows.Run.Execution — the record of a run.

  One record holds the status of the run, what triggered it, the data bag and one result per
  node. A record that is rejected before it starts has no node results.
-/
import Workflows.Failure
import Workflows.Run.Status
namespace Workflows

/-- What happened to one node. -/
structure NodeResult where
  nodeId : String
  status : NodeStatus
  /-- The inputs, by port. -/
  input : Json := .null
  /-- The outputs, by port. -/
  output : Json := .null
  error : Option NodeError := none
  startedAt : Option Instant := none
  stoppedAt : Option Instant := none
deriving DecidableEq

namespace NodeResult

def waiting (id : String) : NodeResult := { nodeId := id, status := .waiting }

/-- Forgets the payloads. -/
def clearPayload (r : NodeResult) : NodeResult := { r with input := .null, output := .null }

end NodeResult

/-- The record of a run. -/
structure Execution where
  id : String
  workflowId : String
  workflowVersion : Nat
  status : RunStatus
  startedAt : Instant
  stoppedAt : Option Instant := none
  /-- The data bag: an object by node, then port. -/
  data : Json := .null
  /-- The first node failure in words, or why the run was rejected or stopped. -/
  error : Option String := none
  idempotencyKey : Option String := none
  triggerData : Json := .null
  nodeResults : Keyed NodeResult := []
deriving DecidableEq

namespace Execution

/-- A record of a run that has not started. -/
def fresh (id workflowId : String) (version : Nat) (trigger : Json) (key : Option String)
    (now : Instant) : Execution :=
  { id, workflowId, workflowVersion := version, status := .new, startedAt := now,
    data := .object [], idempotencyKey := key, triggerData := trigger }

def isTerminal (e : Execution) : Bool := e.status.isTerminal

/-- Moves to another status, if it may; a terminal one sets the time of the stop. -/
def transition (e : Execution) (next : RunStatus) (now : Instant) : Execution :=
  if e.status.canBecome next then
    { e with status := next, stoppedAt := if next.isTerminal then some now else e.stoppedAt }
  else e

def node? (e : Execution) (id : String) : Option NodeResult := Keyed.get? e.nodeResults id

def nodeStatus? (e : Execution) (id : String) : Option NodeStatus := (e.node? id).map (·.status)

/-- Sets the result of a node. -/
def setNode (e : Execution) (id : String) (r : NodeResult) : Execution :=
  { e with nodeResults := Keyed.insert e.nodeResults id r }

/-- Forgets the data bag and the payloads of the nodes. -/
def clearPayloads (e : Execution) : Execution :=
  { e with data := .object [], nodeResults := Keyed.mapValues NodeResult.clearPayload e.nodeResults }

/-- Whether the run was refused before any node ran. -/
def isRejected (e : Execution) : Bool := e.status = .error && e.nodeResults.isEmpty

end Execution

/-! ## Documents -/

open Shape (field fieldOpt fieldDef)

namespace NodeResult

def toJson (r : NodeResult) : Json :=
  .record [("error", r.error.map NodeError.toJson), ("input", some r.input),
    ("nodeId", some (.string r.nodeId)), ("output", some r.output),
    ("startedAt", r.startedAt.map .ofInstant), ("status", some (.string r.status.text)),
    ("stoppedAt", r.stoppedAt.map .ofInstant)]

def shape : Shape :=
  .record "NodeRunResult" [field "nodeId" .text, field "status" (.oneOf NodeStatus.names),
    fieldDef "input" .any, fieldDef "output" .any, fieldOpt "error" NodeError.shape,
    fieldOpt "startedAt" .time, fieldOpt "stoppedAt" .time]

def ofPlain (j : Json) : NodeResult :=
  { nodeId := (j.member "nodeId").textOf,
    status := (NodeStatus.ofText? (j.member "status").textOf).getD .waiting,
    input := j.member "input", output := j.member "output",
    error := ((j.member "error").unlessNull?).map NodeError.ofPlain,
    startedAt := j.time? "startedAt", stoppedAt := j.time? "stoppedAt" }

def ofJson (j : Json) : Except Mismatch NodeResult := (shape.conform j).map ofPlain

end NodeResult

namespace Execution

def toJson (e : Execution) : Json :=
  .record [("data", some e.data), ("error", e.error.map .string), ("id", some (.string e.id)),
    ("idempotencyKey", e.idempotencyKey.map .string),
    ("nodeResults", some (.object (Keyed.mapValues NodeResult.toJson e.nodeResults))),
    ("startedAt", some (.ofInstant e.startedAt)), ("status", some (.string e.status.text)),
    ("stoppedAt", e.stoppedAt.map .ofInstant), ("triggerData", some e.triggerData),
    ("workflowId", some (.string e.workflowId)),
    ("workflowVersion", some (.ofNat e.workflowVersion))]

def shape : Shape :=
  .record "Execution" [field "id" .text, field "workflowId" .text, field "workflowVersion" .u32,
    field "status" (.oneOf RunStatus.names), field "startedAt" .time, fieldOpt "stoppedAt" .time,
    fieldDef "data" .any, fieldOpt "error" .text, fieldOpt "idempotencyKey" .text,
    fieldDef "triggerData" .any, fieldDef "nodeResults" (.dict NodeResult.shape)]

def ofPlain (j : Json) : Execution :=
  { id := (j.member "id").textOf, workflowId := (j.member "workflowId").textOf,
    workflowVersion := (j.member "workflowVersion").natOf,
    status := (RunStatus.ofText? (j.member "status").textOf).getD .new,
    startedAt := (j.time? "startedAt").getD .epoch, stoppedAt := j.time? "stoppedAt",
    data := j.member "data", error := j.text? "error", idempotencyKey := j.text? "idempotencyKey",
    triggerData := j.member "triggerData",
    nodeResults := Keyed.mapValues NodeResult.ofPlain (j.member "nodeResults").membersOf }

def ofJson (j : Json) : Except Mismatch Execution := (shape.conform j).map ofPlain

end Execution
end Workflows
