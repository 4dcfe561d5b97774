/-
  Workflows.Engine.Calls — what clients ask of an engine, step by step.

  A call is a sequence of atomic steps; steps of other calls and of runs may come between any
  two of them. `StartCall` starts a run: under a key it first takes the lock that serves such
  starts one at a time, and gives it back once the record is in the store. `CancelCall` and
  `WaitCall` look for a live run first and read the record after. On an engine that nothing
  else uses meanwhile, `start`, `cancel` and the like take all steps at once.
-/
import Workflows.Engine.Basic
namespace Workflows

/-- What a run is started with. -/
structure StartRequest where
  definition : Definition
  trigger : Json
  key : Option String

/-- A run about to be recorded: its record, and its plan or why it is refused. -/
structure Prepared where
  definition : Definition
  types : Registry
  execution : Execution
  plan : Except Failure Plan

/-- A call that starts a run, between two of its steps. -/
inductive StartCall where
  /-- Looks the workflow up in the catalog. -/
  | lookUp (workflow : String) (trigger : Json) (key : Option String)
  /-- Takes the node types as they are. -/
  | takeTypes (r : StartRequest)
  /-- Takes the lock. -/
  | lock (r : StartRequest) (types : Registry) (key : String)
  /-- Looks for a run under the same key. -/
  | find (r : StartRequest) (types : Registry) (key : String)
  /-- Makes the record. -/
  | prepare (r : StartRequest) (types : Registry)
  /-- Puts the record into the store. -/
  | create (p : Prepared)
  /-- Gives the lock back and announces the run, or its refusal. -/
  | announce (p : Prepared)
  /-- Enters the run among those that are alive. -/
  | enter (p : Prepared) (plan : Plan)
  | answered (result : Except Failure String)

namespace StartCall

/-- Whether the call is under a key, and so holds the lock from `find` to `announce`. -/
def unlock (e : Engine) (key : Option String) : Engine :=
  if key.isSome then { e with locked := false } else e

/-- The answer to a start under a key that has been used: the run of that key, or, if that was
refused, a refusal. -/
def repeated (d : Definition) (types : Registry) (existing : Execution) : Except Failure String :=
  if existing.isRejected then
    match Engine.prepare d types with
    | .error f => .error f
    | .ok _ => .error (.planning (existing.error.getD ""))
  else .ok existing.id

/-- The record of a run that can start: running, every node waiting. -/
def accepted (e : Execution) (p : Plan) (now : Instant) : Execution :=
  { e with nodeResults := Keyed.ofList (p.order.map fun id => (id, .waiting id)) }.transition
    .running now

/-- The record of a run that is refused. -/
def refused (e : Execution) (f : Failure) (now : Instant) : Execution :=
  { e.transition .error now with error := some f.message }

/-- Names a run and makes its record. -/
def makeRecord (r : StartRequest) (types : Registry) (e : Engine) : Prepared × Engine :=
  let (now, e) := e.readClock
  let fresh := Execution.fresh (e.ids.run e.runsNamed) r.definition.key r.definition.version
    r.trigger r.key now
  let e := { e with runsNamed := e.runsNamed + 1 }
  let (later, e) := e.readClock
  let plan := Engine.prepare r.definition types
  let execution := match plan with
    | .ok p => accepted fresh p later
    | .error f => refused fresh f later
  ({ definition := r.definition, types, execution, plan }, e)

/-- The next step; none when the call waits for the lock or is over. -/
def step? (call : StartCall) (e : Engine) : Option (StartCall × Engine) :=
  match call with
  | .lookUp workflow trigger key =>
    match e.catalog.get workflow with
    | .ok d => some (.takeTypes ⟨d, trigger, key⟩, e)
    | .error f => some (.answered (.error f), e)
  | .takeTypes r =>
    match r.key with
    | some key => some (.lock r e.registry key, e)
    | none => some (.prepare r e.registry, e)
  | .lock r types key =>
    if e.locked then none else some (.find r types key, { e with locked := true })
  | .find r types key =>
    match e.store.find? r.definition.key key with
    | .error f => some (.answered (.error f), { e with locked := false })
    | .ok (some existing) =>
      some (.answered (repeated r.definition types existing), { e with locked := false })
    | .ok none => some (.prepare r types, e)
  | .prepare r types =>
    let (p, e) := makeRecord r types e
    some (.create p, e)
  | .create p =>
    match e.store.create p.execution with
    | .ok store => some (.announce p, { e with store })
    | .error f => some (.answered (.error f), unlock e p.execution.idempotencyKey)
  | .announce p =>
    let e := unlock e p.execution.idempotencyKey
    match p.plan with
    | .ok plan =>
      some (.enter p plan, e.announce (.runStarted p.execution.id p.execution.workflowId))
    | .error f => some (.answered (.error f), e.announce (.ofEnded p.execution))
  | .enter p plan =>
    let run : ActiveRun :=
      { coordinator := .ofPlan p.definition plan p.types e.config p.execution }
    some (.answered (.ok p.execution.id), { e with active := e.active ++ [(p.execution.id, run)] })
  | .answered _ => none

/-- How many steps a call has to go at most. -/
def remaining : StartCall → Nat
  | .lookUp _ _ _ => 8
  | .takeTypes _ => 7
  | .lock _ _ _ => 6
  | .find _ _ _ => 5
  | .prepare _ _ => 4
  | .create _ => 3
  | .announce _ => 2
  | .enter _ _ => 1
  | .answered _ => 0

/-- Takes up to `n` steps, one after the other. -/
def advance : (n : Nat) → StartCall → Engine → StartCall × Engine
  | 0, call, e => (call, e)
  | n + 1, call, e =>
    match call.step? e with
    | some (call, e) => advance n call e
    | none => (call, e)

/-- The result of a call that is over. -/
def result : StartCall → Except Failure String
  | .answered r => r
  | _ => .error (.other "start is waiting")

end StartCall

/-- A call that asks a run to cancel. -/
inductive CancelCall where
  /-- Looks for the run among those that are alive. -/
  | look (id : String)
  /-- Reads the record of a run that is not. -/
  | read (id : String)
  | answered (result : Except Failure Unit)

def CancelCall.step? (call : CancelCall) (e : Engine) : Option (CancelCall × Engine) :=
  match call with
  | .look id =>
    if (e.run? id).isSome then some (.answered (.ok ()), e.cancelActive id) else some (.read id, e)
  | .read id => some (.answered ((e.store.get id).map fun _ => ()), e)
  | .answered _ => none

/-- Takes up to `n` steps, one after the other. -/
def CancelCall.advance : (n : Nat) → CancelCall → Engine → CancelCall × Engine
  | 0, call, e => (call, e)
  | n + 1, call, e =>
    match call.step? e with
    | some (call, e) => advance n call e
    | none => (call, e)

def CancelCall.result : CancelCall → Except Failure Unit
  | .answered r => r
  | _ => .ok ()

/-- A call that waits for the end of a run. -/
inductive WaitCall where
  /-- Looks for the run among those that are alive. -/
  | look (id : String)
  /-- Waits to be told. -/
  | await (id : String)
  | read (id : String)
  | answered (result : Except Failure Execution)

/-- Whether those who wait for a run have been told, or it is gone. -/
def Engine.isOver (e : Engine) (id : String) : Bool := (e.run? id).all (·.done)

/-- The next step; none while the run goes on. -/
def WaitCall.step? (call : WaitCall) (e : Engine) : Option WaitCall :=
  match call with
  | .look id => some (if (e.run? id).isSome then .await id else .read id)
  | .await id => if e.isOver id then some (.read id) else none
  | .read id => some (.answered (e.store.get id))
  | .answered _ => none

namespace Engine

/-- Starts a run with nothing coming in between. -/
def begin (e : Engine) (call : StartCall) : Except Failure String × Engine :=
  let (call, e) := call.advance call.remaining e
  (call.result, e)

/-- Starts a run of a definition; the answer is the id of its execution. -/
def startDefinition (e : Engine) (d : Definition) (trigger : Json) (key : Option String) :
    Except Failure String × Engine := e.begin (.takeTypes ⟨d, trigger, key⟩)

/-- Starts a run of a workflow in the catalog. -/
def start (e : Engine) (workflow : String) (trigger : Json) (key : Option String) :
    Except Failure String × Engine := e.begin (.lookUp workflow trigger key)

/-- Asks a run to cancel; one that is over is left alone. -/
def cancel (e : Engine) (id : String) : Except Failure Unit × Engine :=
  let (call, e) := (CancelCall.look id).advance 2 e
  (call.result, e)

end Engine
end Workflows
