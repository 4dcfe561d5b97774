/-
  Workflows.Engine.Schedule — an engine that lives in virtual time.

  One thing happens at a time. Whatever can go on is in a queue and is served in the order it
  was put there: a run takes steps until it waits, a node that has ended reports to its run,
  the requests for error workflows are served. Time stands still while the queue holds anything
  and jumps to the next timer when it is empty: the end of a node, a tool call of a node or
  the timeout of a run. A client's call happens between two settled instants; what it sets in
  motion starts to move when the client waits.
-/
import Workflows.Engine.Calls
import Workflows.Engine.Watch
namespace Workflows

/-- A node in flight: how it is carried out, and what that comes to as things stand. -/
structure Job where
  run : String
  launch : Launch
  launchedAt : Nat
  invocation : Invocation

/-- Something that can go on. -/
inductive Work where
  | run (id : String)
  | job (run node : String)
  | requests
deriving DecidableEq

/-- An engine and what goes on in it, at an instant in milliseconds. -/
structure Schedule where
  engine : Engine
  surroundings : Surroundings
  now : Nat := 0
  queue : List Work := []
  /-- The nodes in flight, in the order they were launched. -/
  jobs : List Job := []
  /-- The nodes that have ended and are not yet handled, in the order they ended. A node that broke
  down before it came to any activity has no outcome. -/
  ended : List (String × String × Option Outcome) := []
  /-- The runs that have been taken up, with the instants at which their time is up. -/
  deadlines : List (String × Option Nat) := []
  /-- All tool calls, in order. -/
  calls : List ToolCall := []

namespace Schedule

/-- Bounds how often the queue is served at one instant, and how often time jumps. -/
def patience : Nat := 10000000

/-- Puts work at the end of the queue unless it is in it. -/
def enqueue (s : Schedule) (w : Work) : Schedule :=
  if s.queue.contains w then s else { s with queue := s.queue ++ [w] }

def enqueueAll (s : Schedule) (ws : List Work) : Schedule := ws.foldl enqueue s

/-- Takes up the runs that have been started since. -/
def adopt (s : Schedule) : Schedule :=
  s.engine.active.foldl (fun s (id, _) =>
    if s.deadlines.any (·.1 == id) then s
    else
      let deadline := s.engine.config.runTimeout.map fun secs => s.now + secs * 1000
      enqueue { s with deadlines := s.deadlines ++ [(id, deadline)] } (.run id)) s

/-- The instant at which a run was asked to cancel, when that is now or has been. -/
def cancelAt? (s : Schedule) (run : String) : Option Nat :=
  if (s.engine.run? run).any (·.canceled) then some s.now else none

/-! ## Nodes -/

def isJob (run node : String) (j : Job) : Bool := j.run == run && j.launch.nodeId == node

/-- Starts to carry out a node. -/
def launch (s : Schedule) (run : String) (l : Launch) : Schedule :=
  let invocation :=
    invoke s.surroundings (s.cancelAt? run) s.now l.timeout l.nodeId l.activity
  let job : Job := { run, launch := l, launchedAt := s.now, invocation }
  enqueue { s with jobs := s.jobs ++ [job] } (.job run l.nodeId)

/-- The job when its run is asked to cancel at `now`: what has been until now stands. -/
def cancelJob (s : Surroundings) (now : Nat) (j : Job) : Job :=
  let before := j.invocation.calls.filter (·.1 ≤ now)
  let i := invoke s (some now) j.launchedAt j.launch.timeout j.launch.nodeId j.launch.activity
  { j with invocation := { i with calls := before ++ i.calls.filter fun c => now < c.1 } }

/-- What a request to cancel a run sets in motion. -/
def cancelRun (s : Schedule) (run : String) : Schedule :=
  let works := (s.jobs.filter (·.run == run)).map fun j => Work.job run j.launch.nodeId
  let jobs := s.jobs.map fun j => if j.run = run then cancelJob s.surroundings s.now j else j
  enqueueAll { s with jobs } (works ++ [.run run])

/-- The job after its calls up to an instant have been made. -/
def afterCalls (now : Nat) (j : Job) : Job :=
  { j with invocation := { j.invocation with
      calls := j.invocation.calls.filter fun c => now < c.1 } }

/-- A node is over, and its run is to be told. -/
def report (s : Schedule) (run node : String) (outcome : Option Outcome) : Schedule :=
  enqueue { s with jobs := s.jobs.filter fun k => !isJob run node k,
                   ended := s.ended ++ [(run, node, outcome)] } (.run run)

/-- Makes the tool calls of a node that are due, and reports the node if it has ended. -/
def serveJob (s : Schedule) (run node : String) : Schedule :=
  match s.jobs.find? (isJob run node) with
  | none => s
  | some j =>
    if j.launch.collapses then s.report run node none
    else
      let due := (j.invocation.calls.filter (·.1 ≤ s.now)).map (·.2)
      let s := { s with calls := s.calls ++ due }
      if j.invocation.endsAt ≤ s.now then s.report run node (some j.invocation.outcome)
      else
        { s with jobs := s.jobs.map fun k =>
            if isJob run node k then afterCalls s.now k else k }

/-! ## Runs -/

/-- Whether the time of a run is up. -/
def isTimeUp (s : Schedule) (run : String) : Bool :=
  s.deadlines.any fun (id, deadline) => id == run && deadline.any (· ≤ s.now)

/-- What a waiting run is told: that its time is up, if it has not been told to stop, else
which node has ended first. -/
def signal? (s : Schedule) (run : String) (c : Coordinator) : Option Signal :=
  if !c.stopping && s.isTimeUp run then some .timedOut
  else (s.ended.find? (·.1 == run)).map fun
    | (_, node, some outcome) => .finished node outcome
    | (_, node, none) => .lost node

/-- Tells a run something, if it waits and there is something to tell. -/
def tell? (s : Schedule) (run : String) : Option Schedule := do
  let r ← s.engine.run? run
  guard (r.coordinator.isWaiting r.canceled)
  let signal ← s.signal? run r.coordinator
  let engine := s.engine.signal run signal
  match signal with
  | .timedOut => return { s with engine }
  | .finished node _ | .lost node =>
    return { s with engine, ended := s.ended.eraseP fun (id, n, _) => id == run && n == node }

/-- Sees to what a step of a run asked for. -/
def follow (s : Schedule) (run : String) : Effect → Schedule
  | .launch l => s.launch run l
  | .cancel => s.cancelRun run
  | .request _ => s.enqueue .requests
  | _ => s

/-- Lets a run take steps until it waits for something that has not happened. -/
def serveRun : (fuel : Nat) → (run : String) → Schedule → Schedule
  | 0, _, s => s
  | fuel + 1, run, s =>
    match s.engine.stepRun? run with
    | some (engine, some effect) => serveRun fuel run ({ s with engine }.follow run effect)
    | some (engine, none) => serveRun fuel run { s with engine }
    | none =>
      match s.tell? run with
      | some s => serveRun fuel run s
      | none => s

/-- Serves the requests for error workflows, one after the other, until none is left. -/
def serveRequests : (fuel : Nat) → Schedule → Schedule
  | 0, s => s
  | fuel + 1, s =>
    match s.engine.requests with
    | [] => s
    | r :: rest =>
      let engine := (Engine.start { s.engine with requests := rest } r.workflow r.trigger none).2
      serveRequests fuel (adopt { s with engine })

def serve (s : Schedule) : Work → Schedule
  | .run id => serveRun patience id s
  | .job run node => s.serveJob run node
  | .requests => serveRequests patience s

/-! ## Time -/

/-- Serves the queue until it is empty. -/
def settleWithin : (fuel : Nat) → Schedule → Schedule
  | 0, s => s
  | fuel + 1, s =>
    match s.queue with
    | [] => s
    | w :: rest => settleWithin fuel ({ s with queue := rest }.serve w)

def settle (s : Schedule) : Schedule := settleWithin patience s

/-- The instants at which something happens by itself. -/
def timers (s : Schedule) : List (Nat × Work) :=
  s.jobs.flatMap (fun j =>
    (j.invocation.calls.map (·.1) ++ [j.invocation.endsAt]).map fun t =>
      (t, Work.job j.run j.launch.nodeId))
    ++ s.deadlines.filterMap fun (id, deadline) =>
      match deadline, s.engine.run? id with
      | some t, some r => if r.coordinator.stopping then none else some (t, .run id)
      | _, _ => none

def earliest : List Nat → Option Nat
  | [] => none
  | t :: ts => some (ts.foldl min t)

/-- The next instant at which something happens by itself. -/
def next? (s : Schedule) : Option Nat :=
  earliest ((s.timers.map (·.1)).filter fun t => s.now < t)

/-- Lets time jump to an instant, and what is due then come to pass. -/
def jump (s : Schedule) (t : Nat) : Schedule :=
  let s := { s with now := t }
  (s.enqueueAll ((s.timers.filter (·.1 ≤ t)).map (·.2))).settle

/-- Lets time pass until something holds, at most up to an instant; whether it came to hold is
for the caller to see. -/
def passUntil (stop : Schedule → Bool) (limit : Option Nat) : (fuel : Nat) → Schedule → Schedule
  | 0, s => s
  | fuel + 1, s =>
    if stop s then s
    else match s.next?, limit with
      | some t, some l => if t ≤ l then passUntil stop limit fuel (s.jump t) else s
      | some t, none => passUntil stop limit fuel (s.jump t)
      | none, _ => s

/-- Lets that many milliseconds pass. -/
def advance (s : Schedule) (millis : Nat) : Schedule :=
  let limit := s.now + millis
  let s := passUntil (fun _ => false) (some limit) patience s.settle
  { s with now := limit }

/-- Waits for the end of a run and reads its record. -/
def waitFor (s : Schedule) (run : String) : Except Failure Execution × Schedule :=
  let isOver := fun s : Schedule => s.engine.isOver run
  let s := if (s.engine.run? run).isSome then passUntil isOver none patience s.settle else s
  (s.engine.store.get run, s)

/-! ## Calls of a client -/

def start (s : Schedule) (workflow : String) (trigger : Json) (key : Option String) :
    Except Failure String × Schedule :=
  let (r, engine) := s.engine.start workflow trigger key
  (r, { s with engine }.adopt)

def startDefinition (s : Schedule) (d : Definition) (trigger : Json) (key : Option String) :
    Except Failure String × Schedule :=
  let (r, engine) := s.engine.startDefinition d trigger key
  (r, { s with engine }.adopt)

/-- Asks a run to cancel. -/
def cancel (s : Schedule) (run : String) : Except Failure Unit × Schedule :=
  let alive := (s.engine.run? run).any (!·.canceled)
  let (r, engine) := s.engine.cancel run
  let s := { s with engine }
  (r, if alive then s.cancelRun run else s)

/-- Calls a tool and waits for the answer. -/
def callTool (s : Schedule) (call : ToolCall) : Except NodeError Json × Schedule :=
  let (delay, answer) := s.engine.tools.call call
  let s := { s with calls := s.calls ++ [call] }
  (answer, if delay = 0 then s else s.advance delay)

/-- Follows the events of a run to the last. -/
def watch (s : Schedule) (run : String) : Except Failure (List Event) × Schedule :=
  let w := (Watch.subscribe run).advance 2 s.engine
  if w.isOver then (w.result, s)
  else
    let isOver := fun s : Schedule => (w.catchUp s.engine).isOver
    let s := passUntil isOver none patience s.settle
    ((w.catchUp s.engine).result, s)

end Schedule
end Workflows
