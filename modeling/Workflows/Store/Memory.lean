/-
  Workflows.Store.Memory — executions kept as they are.

  Records stand in the order they were created, which breaks ties between equal start times.
  A call that fails leaves the store as it was.
-/
import Workflows.Run.Execution
namespace Workflows

/-- Executions in the order they were created. -/
structure MemoryStore where
  records : List Execution := []

namespace MemoryStore

def get? (s : MemoryStore) (id : String) : Option Execution := s.records.find? (·.id == id)

def duplicate (id : String) : Failure := .duplicate s!"Execution '{id}'"

/-- Adds a record whose id is new. -/
def create (s : MemoryStore) (e : Execution) : Except Failure MemoryStore :=
  if (s.get? e.id).isSome then .error (duplicate e.id) else .ok ⟨s.records ++ [e]⟩

/-- Changes the record of an id. -/
def modify (s : MemoryStore) (id : String) (f : Execution → Execution) :
    Except Failure MemoryStore :=
  if (s.get? id).isSome then
    .ok ⟨s.records.map fun e => if e.id = id then f e else e⟩
  else .error (.executionNotFound id)

/-- Replaces a record. -/
def update (s : MemoryStore) (e : Execution) : Except Failure MemoryStore := s.modify e.id fun _ => e

/-- Replaces the result of one node. -/
def putNode (s : MemoryStore) (id : String) (r : NodeResult) : Except Failure MemoryStore :=
  s.modify id fun e => e.setNode r.nodeId r

/-- The executions of a workflow, the latest start first and of equal starts the latest created. -/
def list (s : MemoryStore) (workflow : String) : List Execution :=
  (s.records.filter (·.workflowId == workflow)).reverse.mergeSort
    fun a b => decide (b.startedAt ≤ a.startedAt)

/-- The execution of a workflow that was started under a key. -/
def find? (s : MemoryStore) (workflow key : String) : Option Execution :=
  s.records.find? fun e => e.workflowId == workflow && e.idempotencyKey == some key

/-- Whether a record is that of a run that stopped before an instant. -/
def isExpired (before : Instant) (e : Execution) : Bool :=
  e.isTerminal && e.stoppedAt.any fun t => t.before before

/-- Deletes what stopped before an instant, and counts it. -/
def prune (s : MemoryStore) (before : Instant) : MemoryStore × Nat :=
  (⟨s.records.filter fun e => !isExpired before e⟩,
    (s.records.filter (isExpired before)).length)

end MemoryStore
end Workflows
