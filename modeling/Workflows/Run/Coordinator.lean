/-
  Workflows.Run.Coordinator — what drives one run.

  A coordinator is the only writer of its run's record. It starts the nodes that are ready in
  ascending order of ids while slots are free, waits, and is told which node has finished or
  that the time of the run is up. What it decides it carries out errand by errand, one atomic
  step each: the change of the record is written to the store before it is announced, and
  announced before a node is launched. A request to cancel is looked at whenever it decides
  anew, so it may come between any two steps.

  Once the run is told to stop, by a request or because its time is up, no node is started
  and its status stands; the nodes in flight are still waited for and recorded.
-/
import Workflows.Config.Basic
import Workflows.Graph.Plan
import Workflows.Run.Event
import Workflows.Run.Invocation
namespace Workflows

/-- A node about to be carried out. -/
structure Launch where
  nodeId : String
  activity : Activity
  /-- The node breaks down before it comes to its activity. -/
  collapses : Bool := false
  /-- In milliseconds. -/
  timeout : Nat

/-- A request to start the workflow that handles the failure of a run. -/
structure ErrorRequest where
  workflow : String
  trigger : Json
deriving DecidableEq

/-- What a coordinator has decided and has yet to do. -/
inductive Errand where
  | save
  | saveNode (id : String)
  | emit (event : Event)
  | launch (node : Launch)
  /-- Marks a node as skipped if it is still waiting. -/
  | skip (id : String)
  /-- Asks the nodes in flight to cancel. -/
  | cancel
  | request (r : ErrorRequest)
  /-- Tells those who wait for the run. -/
  | signalDone
  | leave

/-- What a step does to the surroundings of the coordinator. -/
inductive Effect where
  | save (e : Execution)
  | saveNode (executionId : String) (r : NodeResult)
  | emit (event : Event)
  | launch (node : Launch)
  | cancel
  | request (r : ErrorRequest)
  | signalDone
  | leave

/-- What a waiting coordinator is told. -/
inductive Signal where
  | timedOut
  | finished (node : String) (outcome : Outcome)
  /-- Whoever carried out the node is gone, and there is no outcome. -/
  | lost (node : String)

/-- The state of one run. -/
structure Coordinator where
  definition : Definition
  plan : Plan
  /-- The node types as they were when the run started. -/
  types : Registry
  config : Config
  execution : Execution
  bag : DataBag := []
  /-- For each node how many of the nodes before it have not succeeded. -/
  pending : Keyed Nat
  /-- The nodes that may start, ascending. -/
  ready : NameSet
  /-- The nodes started and not yet handled, in the order they were started. -/
  inFlight : List String := []
  /-- The run has been told to stop. -/
  stopping : Bool := false
  firstFailure : Option (String × NodeError) := none
  errands : List Errand := []
  /-- Nothing is left but the last errands. -/
  closing : Bool := false

namespace Coordinator

def ofPlan (d : Definition) (p : Plan) (types : Registry) (config : Config) (e : Execution) :
    Coordinator :=
  { definition := d, plan := p, types, config, execution := e,
    pending := Keyed.ofList (p.order.map fun id => (id, (p.dependencies id).length)),
    ready := NameSet.ofList p.roots }

/-- How many nodes may be in flight. -/
def slots (c : Coordinator) : Nat := max c.config.maxConcurrency 1

def resultOf (c : Coordinator) (id : String) : NodeResult :=
  (c.execution.node? id).getD (.waiting id)

/-- Changes the result of a node in the record. -/
def setResult (c : Coordinator) (id : String) (r : NodeResult) : Coordinator :=
  { c with execution := c.execution.setNode id r }

def finishedEvent (c : Coordinator) (id : String) (status : NodeStatus) (error : Option String) :
    Event :=
  .nodeFinished c.execution.id id status.text error

/-! ## Starting nodes -/

def contextOf (c : Coordinator) (node : Node) (inputs : PortValues) : Context :=
  { executionId := c.execution.id, workflowId := c.execution.workflowId, nodeId := node.id,
    nodeType := node.type, data := node.data, inputs, vars := c.definition.vars }

/-- How a node is carried out; one of an unknown type fails. -/
def launchOf (c : Coordinator) (node : Node) (inputs : PortValues) : Launch :=
  { nodeId := node.id,
    activity := match c.types.resolve? node.type with
      | some type => type.act (c.contextOf node inputs)
      | none => .fail (.invalidInput s!"Unknown node type '{node.type}'"),
    collapses := (c.types.resolve? node.type).any (·.collapses (c.contextOf node inputs)),
    timeout := c.config.timeoutOf node.type * 1000 }

/-- Takes a node from the ready ones and starts it on the inputs made for it. -/
def startNode (c : Coordinator) (id : String) (now : Instant) : Coordinator :=
  let c := { c with ready := c.ready.filter (· ≠ id) }
  match c.definition.node? id with
  | none => c
  | some node =>
    let inputs := c.bag.inputs c.definition id c.execution.triggerData
    let result := { c.resultOf id with
      status := .running, input := .object inputs, startedAt := some now }
    { c.setResult id result with
      inFlight := c.inFlight ++ [id],
      errands := [.saveNode id, .emit (.nodeStarted c.execution.id id),
        .launch (c.launchOf node inputs)] }

/-! ## Handling what has finished -/

/-- Counts a node as succeeded for those after it; a waiting one that has no other left to
wait for becomes ready, unless the run is told to stop. -/
def release (c : Coordinator) (dependents : List String) : Coordinator :=
  dependents.foldl (fun c id =>
    match Keyed.get? c.pending id with
    | none => c
    | some n =>
      let c := { c with pending := Keyed.insert c.pending id (n - 1) }
      if n - 1 = 0 ∧ c.execution.nodeStatus? id = some .waiting ∧ !c.stopping then
        { c with ready := c.ready.insert id }
      else c) c

/-- Records what a node put out. -/
def complete (c : Coordinator) (id : String) (ports : PortValues) (now : Instant) : Coordinator :=
  let result := { c.resultOf id with
    status := .success, output := .object ports, stoppedAt := some now }
  let bag := c.bag.record id ports
  let c := c.setResult id result
  let c := { c with bag, execution := { c.execution with data := bag.toJson },
                    errands := [.save, .emit (c.finishedEvent id .success none)] }
  c.release (c.plan.dependents id)

/-- Records a failure; every node behind is to be skipped, unless the run has stopped. -/
def fail (c : Coordinator) (id : String) (e : NodeError) (now : Instant) : Coordinator :=
  let result := { c.resultOf id with status := .error, error := some e, stoppedAt := some now }
  let c := c.setResult id result
  let skips := if c.execution.isTerminal then [] else c.plan.allDependents id
  { c with firstFailure := c.firstFailure <|> some (id, e),
           errands := [.saveNode id, .emit (c.finishedEvent id .error (some e.message))]
             ++ skips.map Errand.skip }

/-- Marks a node as skipped. -/
def skipNode (c : Coordinator) (id : String) (now : Instant) : Coordinator :=
  match c.execution.node? id with
  | some r =>
    if r.status = .waiting then
      { c.setResult id { r with status := .skipped, stoppedAt := some now } with
        errands := [.saveNode id, .emit (c.finishedEvent id .skipped none)] ++ c.errands }
    else c
  | none => c

/-! ## Stopping and finishing -/

/-- Tells the run to stop: its status is settled, the nodes in flight are waited for. -/
def stop (c : Coordinator) (status : RunStatus) (error : Option String) (now : Instant) :
    Coordinator :=
  let c := { c with stopping := true }
  if c.execution.status.canBecome status then
    { c with execution := { c.execution.transition status now with error },
             errands := c.errands ++ [.save] }
  else c

def timeoutText (seconds : Nat) : String := s!"Workflow timed out after {seconds} seconds"

/-- The failure of a node, as the error of its run. -/
def failureText (id : String) (e : NodeError) : String := s!"Node '{id}' failed: {e.message}"

/-- The record with its final status. -/
def settled (c : Coordinator) (now : Instant) : Execution :=
  if c.execution.isTerminal then c.execution
  else match c.firstFailure with
    | some (id, e) => { c.execution.transition .error now with error := some (failureText id e) }
    | none => c.execution.transition .success now

/-- Whether the payloads of a run that ended so are kept. -/
def policy (c : Coordinator) : RunStatus → SavePolicy
  | .success => c.definition.settings.saveOnSuccess
  | _ => c.definition.settings.saveOnError

/-- The final record. -/
def finalRecord (c : Coordinator) (now : Instant) : Execution :=
  let e := { c.settled now with data := c.bag.toJson }
  if c.policy e.status = .none then e.clearPayloads else e

/-- The node that is blamed for the end of a run. -/
def failedNode? (c : Coordinator) : Option String :=
  if c.execution.status = .error then c.firstFailure.map (·.1) else none

/-- The request for the workflow that handles the failure, if the definition names one other
than itself. -/
def errorRequest? (c : Coordinator) : Option ErrorRequest :=
  let e := c.execution
  if e.status ≠ .error then none
  else match c.definition.settings.errorWorkflow with
  | none => none
  | some workflow =>
    if workflow = e.workflowId then none
    else some ⟨workflow, .object [
      ("error", .object [("executionId", .string e.id), ("message", .ofOption .string e.error),
        ("nodeId", .ofOption .string c.failedNode?), ("startedAt", .ofInstant e.startedAt),
        ("stoppedAt", .ofOption .ofInstant e.stoppedAt), ("workflowId", .string e.workflowId)]),
      ("trigger", e.triggerData)]⟩

/-- Ends the run. -/
def finish (c : Coordinator) (now : Instant) : Coordinator :=
  let c := { c with execution := c.finalRecord now, closing := true }
  { c with errands := [.save, .emit (.ofEnded c.execution)]
      ++ (c.errorRequest?.map Errand.request).toList ++ [.signalDone, .leave] }

/-! ## Steps -/

/-- Carries out the first errand. -/
def perform (c : Coordinator) (now : Instant) : Errand → Coordinator × Option Effect
  | .save => (c, some (.save c.execution))
  | .saveNode id => (c, (c.execution.node? id).map (Effect.saveNode c.execution.id))
  | .emit e => (c, some (.emit e))
  | .launch node => (c, some (.launch node))
  | .skip id => (c.skipNode id now, none)
  | .cancel => (c, some .cancel)
  | .request r => (c, some (.request r))
  | .signalDone => (c, some .signalDone)
  | .leave => (c, some .leave)

/-- What to do when no errand is left; nothing when it has to wait or is over. -/
def decide? (c : Coordinator) (canceled : Bool) (now : Instant) : Option Coordinator :=
  if c.closing then none
  else if !c.stopping && canceled then some (c.stop .canceled none now)
  else match !c.stopping && decide (c.inFlight.length < c.slots), c.ready with
    | true, id :: _ => some (c.startNode id now)
    | _, _ => if c.inFlight.isEmpty then some (c.finish now) else none

/-- The next atomic step; none when the coordinator waits to be told something, or is over. -/
def step? (c : Coordinator) (canceled : Bool) (now : Instant) :
    Option (Coordinator × Option Effect) :=
  match c.errands with
  | e :: rest => some ({ c with errands := rest }.perform now e)
  | [] => (c.decide? canceled now).map fun c => (c, none)

/-- Whether the coordinator waits to be told something. -/
def isWaiting (c : Coordinator) (canceled : Bool) : Bool :=
  c.errands.isEmpty && !c.closing && !c.inFlight.isEmpty && (c.stopping || (!canceled &&
    (c.ready.isEmpty || decide (c.slots ≤ c.inFlight.length))))

/-- Handles what a waiting coordinator is told. -/
def receive (c : Coordinator) (now : Instant) : Signal → Coordinator
  | .timedOut =>
    { c with errands := [.cancel] }.stop .error
      (some (timeoutText (c.config.runTimeout.getD 0))) now
  | .finished id outcome =>
    let c := { c with inFlight := c.inFlight.filter (· ≠ id) }
    match outcome with
    | .ok ports => c.complete id ports now
    | .error e => c.fail id e now
  | .lost id => { c with inFlight := c.inFlight.filter (· ≠ id) }

end Coordinator
end Workflows
