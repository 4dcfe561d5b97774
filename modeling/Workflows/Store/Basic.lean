/-
  Workflows.Store.Basic — where executions are kept.

  A store is one of two kinds with the same operations: records kept as they are, or rows of
  texts as a database keeps them. A call that fails gives no new store.
-/
import Workflows.Store.Memory
import Workflows.Store.Table
namespace Workflows

/-- A store of executions. -/
inductive Store where
  | memory (records : MemoryStore)
  | table (rows : TableStore)

namespace Store

def create (s : Store) (e : Execution) : Except Failure Store :=
  match s with
  | memory m => (m.create e).map memory
  | table t => (t.create e).map table

def update (s : Store) (e : Execution) : Except Failure Store :=
  match s with
  | memory m => (m.update e).map memory
  | table t => (t.update e).map table

def putNode (s : Store) (id : String) (r : NodeResult) : Except Failure Store :=
  match s with
  | memory m => (m.putNode id r).map memory
  | table t => (t.putNode id r).map table

def get? (s : Store) (id : String) : Except Failure (Option Execution) :=
  match s with
  | memory m => .ok (m.get? id)
  | table t => t.get? id

/-- The execution of an id that is there. -/
def get (s : Store) (id : String) : Except Failure Execution :=
  match s.get? id with
  | .ok (some e) => .ok e
  | .ok none => .error (.executionNotFound id)
  | .error f => .error f

def list (s : Store) (workflow : String) : Except Failure (List Execution) :=
  match s with
  | memory m => .ok (m.list workflow)
  | table t => t.list workflow

def find? (s : Store) (workflow key : String) : Except Failure (Option Execution) :=
  match s with
  | memory m => .ok (m.find? workflow key)
  | table t => t.find? workflow key

def prune (s : Store) (before : Instant) : Store × Nat :=
  match s with
  | memory m => let (m, n) := m.prune before; (memory m, n)
  | table t => let (t, n) := t.prune before; (table t, n)

end Store
end Workflows
