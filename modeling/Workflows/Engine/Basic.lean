/-
  Workflows.Engine.Basic — what the parts of an engine share.

  An engine holds the catalog, the node types, the store, the events announced so far, the
  runs whose coordinators are alive and the requests for error workflows not yet served.
  Everything that happens is a sequence of atomic steps on this state: steps of calls
  (`Workflows.Engine.Calls`) and steps of the runs (`stepRun?`).
-/
import Workflows.Catalog.Basic
import Workflows.Config.Override
import Workflows.Definition.Check
import Workflows.Run.Coordinator
import Workflows.Store.Basic
import Workflows.Tools.Service
namespace Workflows

/-- A run whose coordinator is alive. -/
structure ActiveRun where
  coordinator : Coordinator
  /-- The run has been asked to cancel. -/
  canceled : Bool := false
  /-- Those who wait for the run have been told. -/
  done : Bool := false

/-- Where new ids come from: the `n`-th of each kind. -/
structure IdSupply where
  run : Nat → String
  workflow : Nat → String := Catalog.generatedId

/-- The shared state of an engine. -/
structure Engine where
  config : Config := {}
  registry : Registry
  catalog : Catalog := {}
  store : Store := .memory {}
  tools : ToolService := .unconfigured
  ids : IdSupply
  /-- All events, in the order they were announced. -/
  events : List Event := []
  /-- The runs whose coordinators are alive, in the order they were entered. -/
  active : List (String × ActiveRun) := []
  /-- Whether a call holds the lock that serves starts under a key one at a time. -/
  locked : Bool := false
  /-- Requests not yet served, in order. -/
  requests : List ErrorRequest := []
  runsNamed : Nat := 0
  workflowsNamed : Nat := 0
  /-- The time by the clock on the wall. -/
  clock : Instant := .epoch

namespace Engine

/-- Reads the clock, which moves on with each reading. -/
def readClock (e : Engine) : Instant × Engine := (e.clock, { e with clock := e.clock.tick })

def announce (e : Engine) (event : Event) : Engine := { e with events := e.events ++ [event] }

def run? (e : Engine) (id : String) : Option ActiveRun :=
  (e.active.find? (·.1 == id)).map (·.2)

/-- Changes a run that is alive. -/
def modifyRun (e : Engine) (id : String) (f : ActiveRun → ActiveRun) : Engine :=
  { e with active := e.active.map fun (k, r) => if k = id then (k, f r) else (k, r) }

/-- Asks a run that is alive to cancel. -/
def cancelActive (e : Engine) (id : String) : Engine :=
  e.modifyRun id fun r => { r with canceled := true }

/-! ## The catalog -/

def createWorkflow (e : Engine) (d : Definition) : Except Failure (Engine × Definition) := do
  let (now, e) := e.readClock
  let (catalog, d) ← e.catalog.create (e.ids.workflow e.workflowsNamed) now d
  return ({ e with catalog, workflowsNamed := e.workflowsNamed + 1 }, d)

def importWorkflow (e : Engine) (document : Json) : Except Failure (Engine × Definition) :=
  match Definition.ofJson document with
  | .ok d => e.createWorkflow d
  | .error m => .error (.document (.mismatch m))

def updateWorkflow (e : Engine) (id : String) (d : Definition) :
    Except Failure (Engine × Definition) := do
  let (now, e) := e.readClock
  let (catalog, d) ← e.catalog.update id now d
  return ({ e with catalog }, d)

def deleteWorkflow (e : Engine) (id : String) : Except Failure Engine := do
  let catalog ← e.catalog.delete id
  return { e with catalog }

/-! ## Planning -/

/-- The plan of a definition that is well formed under some node types. -/
def prepare (d : Definition) (types : Registry) : Except Failure Plan := do
  let _ ← (d.check types).toExcept
  (Plan.ofDefinition d).mapError PlanError.toFailure

/-! ## Runs -/

/-- A call of the store by a run; if it fails the store stays as it was. -/
def write (e : Engine) (f : Store → Except Failure Store) : Engine :=
  match f e.store with
  | .ok store => { e with store }
  | .error _ => e

/-- Does to the engine what a step of a run asks for. Launching nodes is left to whoever
carries them out. -/
def apply (e : Engine) (id : String) : Effect → Engine
  | .save record => e.write (·.update record)
  | .saveNode execution r => e.write (·.putNode execution r)
  | .emit event => e.announce event
  | .launch _ => e
  | .cancel => e.cancelActive id
  | .request r => { e with requests := e.requests ++ [r] }
  | .signalDone => e.modifyRun id fun r => { r with done := true }
  | .leave => { e with active := e.active.filter (·.1 ≠ id) }

/-- The next atomic step of a run, and what it asked for; none when the run waits. -/
def stepRun? (e : Engine) (id : String) : Option (Engine × Option Effect) := do
  let r ← e.run? id
  let (c, effect) ← r.coordinator.step? r.canceled e.clock
  let e := { e with clock := e.clock.tick }.modifyRun id fun r => { r with coordinator := c }
  match effect with
  | some f => return (e.apply id f, some f)
  | none => return (e, none)

/-- Tells a waiting run something. -/
def signal (e : Engine) (id : String) (s : Signal) : Engine :=
  let (now, e) := e.readClock
  e.modifyRun id fun r => { r with coordinator := r.coordinator.receive now s }

/-! ## Retention -/

/-- Deletes executions that stopped before an instant, and counts them. -/
def prune (e : Engine) (before : Instant) : Engine × Nat :=
  let (store, n) := e.store.prune before
  ({ e with store }, n)

/-- Days as the arithmetic of dates takes them: a word of 64 bits with a sign. -/
def signedDays (days : Nat) : Int := if days < pow2 63 then days else days - pow2 64

/-- The instant that many days before another, if both the span and the date can be told. -/
def daysBefore? (now : Instant) (days : Nat) : Option Instant :=
  let seconds := signedDays days * 86400
  if seconds.natAbs ≤ 9223372036854775 then
    let t := now.addSeconds (-seconds)
    if t.inRange then some t else none
  else none

/-- Deletes executions older than the configuration allows, and counts them. -/
def pruneExpired (e : Engine) : Except Failure (Engine × Nat) :=
  match e.config.maxAgeDays with
  | none => .ok (e, 0)
  | some days =>
    let (now, e) := e.readClock
    match daysBefore? now days with
    | some before => .ok (e.prune before)
    | none => .error .overflow

end Engine
end Workflows
