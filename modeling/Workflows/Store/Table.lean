/-
  Workflows.Store.Table — executions kept as rows of texts.

  A row holds JSON values as compact text and instants in the form of fixed width. Reading a
  row back can fail: an instant outside the years 0 to 9999 has no text that reads back. A
  JSON text that cannot be read counts as `null`. Updating a row changes its status, stop
  time, data and error only, and replaces or adds the node results given; results are kept by
  the node id they carry. Rows stand in the order they were created.
-/
import Workflows.Run.Execution
import Workflows.Json.Text
namespace Workflows

/-- The result of a node, as a row. -/
structure NodeRow where
  status : NodeStatus
  input : String
  output : String
  error : Option String
  startedAt : Option String
  stoppedAt : Option String
deriving DecidableEq

/-- An execution, as a row and the rows of its nodes. -/
structure ExecutionRow where
  id : String
  workflowId : String
  workflowVersion : Nat
  status : RunStatus
  startedAt : String
  stoppedAt : Option String
  data : String
  error : Option String
  idempotencyKey : Option String
  triggerData : String
  nodes : Keyed NodeRow
deriving DecidableEq

/-! ## Writing rows -/

def NodeRow.ofResult (r : NodeResult) : NodeRow :=
  { status := r.status, input := r.input.compact, output := r.output.compact,
    error := r.error.map (·.toJson.compact), startedAt := r.startedAt.map Instant.columnText,
    stoppedAt := r.stoppedAt.map Instant.columnText }

/-- Replaces or adds the rows of some results, each under the id it carries. -/
def ExecutionRow.putNodes (row : ExecutionRow) (results : List NodeResult) : ExecutionRow :=
  { row with nodes := Keyed.insertAll row.nodes (results.map fun r => (r.nodeId, .ofResult r)) }

def ExecutionRow.ofExecution (e : Execution) : ExecutionRow :=
  ExecutionRow.putNodes
    { id := e.id, workflowId := e.workflowId, workflowVersion := e.workflowVersion,
      status := e.status, startedAt := e.startedAt.columnText,
      stoppedAt := e.stoppedAt.map Instant.columnText, data := e.data.compact, error := e.error,
      idempotencyKey := e.idempotencyKey, triggerData := e.triggerData.compact, nodes := [] }
    (Keyed.values e.nodeResults)

/-! ## Reading rows -/

/-- The value of a JSON text, `null` when it cannot be read. -/
def valueOfText (s : String) : Json :=
  match Json.parse s with
  | .ok j => j
  | .error _ => .null

def instantOfColumn (s : String) : Except Failure Instant :=
  match Instant.ofColumn? s with
  | some t => .ok t
  | none => .error .database

def instantOfColumn? : Option String → Except Failure (Option Instant)
  | none => .ok none
  | some s => (instantOfColumn s).map some

/-- The failure a text describes, if it does. -/
def nodeErrorOfText? (s : String) : Option NodeError :=
  match NodeError.shape.parseText s with
  | .ok j => some (.ofPlain j)
  | .error _ => none

def NodeRow.result (row : NodeRow) (id : String) : Except Failure NodeResult := do
  let startedAt ← instantOfColumn? row.startedAt
  let stoppedAt ← instantOfColumn? row.stoppedAt
  return { nodeId := id, status := row.status, input := valueOfText row.input,
           output := valueOfText row.output, error := row.error.bind nodeErrorOfText?,
           startedAt, stoppedAt }

def ExecutionRow.execution (row : ExecutionRow) : Except Failure Execution := do
  let startedAt ← instantOfColumn row.startedAt
  let stoppedAt ← instantOfColumn? row.stoppedAt
  let nodeResults ← row.nodes.mapM fun (id, n) => do return (id, ← n.result id)
  return { id := row.id, workflowId := row.workflowId, workflowVersion := row.workflowVersion,
           status := row.status, startedAt, stoppedAt, data := valueOfText row.data,
           error := row.error, idempotencyKey := row.idempotencyKey,
           triggerData := valueOfText row.triggerData, nodeResults }

/-! ## The table -/

/-- Rows in the order they were created. -/
structure TableStore where
  rows : List ExecutionRow := []

namespace TableStore

def row? (s : TableStore) (id : String) : Option ExecutionRow := s.rows.find? (·.id == id)

/-- Whether a row stands in the way of a new one: the same id, or the same workflow and key. -/
def clashes (row new : ExecutionRow) : Bool :=
  row.id == new.id || (row.workflowId == new.workflowId && new.idempotencyKey.isSome
    && row.idempotencyKey == new.idempotencyKey)

/-- Adds a row whose id is new, and whose key is new to its workflow. -/
def create (s : TableStore) (e : Execution) : Except Failure TableStore :=
  let new := ExecutionRow.ofExecution e
  if s.rows.any (clashes · new) then .error (.duplicate s!"Execution '{e.id}'")
  else .ok ⟨s.rows ++ [new]⟩

/-- Changes the row of an id. -/
def modify (s : TableStore) (id : String) (f : ExecutionRow → ExecutionRow) :
    Except Failure TableStore :=
  if (s.row? id).isSome then .ok ⟨s.rows.map fun r => if r.id = id then f r else r⟩
  else .error (.executionNotFound id)

def update (s : TableStore) (e : Execution) : Except Failure TableStore :=
  s.modify e.id fun row =>
    { row with status := e.status, stoppedAt := e.stoppedAt.map Instant.columnText,
               data := e.data.compact, error := e.error }.putNodes (Keyed.values e.nodeResults)

def putNode (s : TableStore) (id : String) (r : NodeResult) : Except Failure TableStore :=
  s.modify id fun row => row.putNodes [r]

def get? (s : TableStore) (id : String) : Except Failure (Option Execution) :=
  match s.row? id with
  | none => .ok none
  | some row => row.execution.map some

/-- The executions of a workflow, the greatest start text first and of equal ones the latest
created. -/
def list (s : TableStore) (workflow : String) : Except Failure (List Execution) :=
  ((s.rows.filter (·.workflowId == workflow)).reverse.mergeSort
    fun a b => decide (b.startedAt ≤ a.startedAt)).mapM ExecutionRow.execution

def find? (s : TableStore) (workflow key : String) : Except Failure (Option Execution) :=
  match s.rows.find? fun r => r.workflowId == workflow && r.idempotencyKey == some key with
  | none => .ok none
  | some row => row.execution.map some

/-- Whether a row is that of a run whose stop text is less than a text. -/
def isExpired (before : String) (row : ExecutionRow) : Bool :=
  row.status.isTerminal && row.stoppedAt.any fun t => decide (t < before)

/-- Deletes the rows that stopped before an instant, and counts them. -/
def prune (s : TableStore) (before : Instant) : TableStore × Nat :=
  (⟨s.rows.filter fun r => !isExpired before.columnText r⟩,
    (s.rows.filter (isExpired before.columnText)).length)

end TableStore
end Workflows
