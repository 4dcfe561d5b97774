/-
  Workflows.Run.Invocation — one node carried out in time.

  Time is counted in milliseconds. What answers a node's calls is a `Surroundings`: for each
  call how long the answer takes and what it is. Together with the instant at which the run
  is asked to cancel, if it ever is, and that at which its time is up, they fix the `Course` of
  an activity: which calls it makes, when it ends and how. `invoke` puts the timeout around it:
  every invocation has one outcome, the node's own unless its time is up while it waits, and a
  node that breaks down has failed. A node that works on without a wait is not held up, however
  long ago its time was up.
-/
import Workflows.NodeType.Activity
namespace Workflows

/-- What answers a node's calls: after how many milliseconds, and with what. -/
structure Surroundings where
  callTool : ToolCall → Nat × Except NodeError Json
  fetch : WebRequest → Nat × Except NodeError WebResponse

/-- What an activity comes to under a timeout: its tool calls with their instants, and its end. -/
structure Course where
  calls : List (Nat × ToolCall)
  endsAt : Nat
  /-- None when the time was up first. -/
  ending : Option Ending

/-- Whether a request to cancel has been made by an instant. -/
def canceledBy (cancelAt : Option Nat) (now : Nat) : Bool := cancelAt.any (· ≤ now)

/-- The instant at which a request to cancel ends a wait from `now` to `wake`. A wait that is
over at the instant of the request has run to its end. -/
def interruption? (cancelAt : Option Nat) (now wake : Nat) : Option Nat :=
  match cancelAt with
  | some c => if c < wake then some (max c now) else none
  | none => none

/-- A wait from `now` to `wake`, and what comes after it. Whether the time is up is looked at while
it lasts; a wait that is over at that instant has run to its end. -/
def Course.wait (limit now wake : Nat) (next : Course) : Course :=
  if wake ≤ max limit now then next else { calls := [], endsAt := max limit now, ending := none }

/-- The course of an activity from an instant on, when its time is up at `limit`. -/
def Activity.course (s : Surroundings) (cancelAt : Option Nat) (limit : Nat) :
    (now : Nat) → Activity → Course
  | now, .done e => { calls := [], endsAt := now, ending := some e }
  | now, .hang => { calls := [], endsAt := max limit now, ending := none }
  | now, .busy millis next => next.course s cancelAt limit (now + millis)
  | now, .pause millis whenCanceled next =>
    let wake := now + millis
    match interruption? cancelAt now wake, whenCanceled with
    | some t, some e => .wait limit now t { calls := [], endsAt := t, ending := some (.fails e) }
    | _, _ => .wait limit now wake ((next (canceledBy cancelAt wake)).course s cancelAt limit wake)
  | now, .callTool call next =>
    let (delay, answer) := s.callTool call
    let rest : Course := match interruption? cancelAt now (now + delay) with
      | some t => .wait limit now t { calls := [], endsAt := t, ending := some (.fails .canceled) }
      | none => .wait limit now (now + delay) ((next answer).course s cancelAt limit (now + delay))
    { rest with calls := (now, call) :: rest.calls }
  | now, .fetch request next =>
    let (delay, answer) := s.fetch request
    match interruption? cancelAt now (now + delay) with
    | some t => .wait limit now t { calls := [], endsAt := t, ending := some (.fails .canceled) }
    | none => .wait limit now (now + delay) ((next answer).course s cancelAt limit (now + delay))

/-- The outcome of a node: what it puts out, or its failure. -/
abbrev Outcome := Except NodeError PortValues

def Ending.outcome (nodeId : String) : Ending → Outcome
  | .outputs ports => .ok ports
  | .fails e => .error e
  | .breaksDown reason =>
    let why := reason.getD "unknown panic"
    .error (.failed s!"Node '{nodeId}' panicked: {why}")

/-- One invocation of a node: its tool calls, the instant it ends and its outcome. -/
structure Invocation where
  calls : List (Nat × ToolCall)
  endsAt : Nat
  outcome : Outcome

/-- Carries out an activity from `now` on, under a timeout. -/
def invoke (s : Surroundings) (cancelAt : Option Nat) (now timeout : Nat) (nodeId : String)
    (a : Activity) : Invocation :=
  let course := a.course s cancelAt (now + timeout) now
  { calls := course.calls, endsAt := course.endsAt,
    outcome := match course.ending with
      | some e => e.outcome nodeId
      | none => .error (.timedOut timeout) }

end Workflows
