/-
  Workflows.NodeType.Scripted — node types whose nodes do what their configuration says.

  They stand in for real work where only timing, failure and ports matter: a node that takes
  its time and heeds a request to cancel or not, one that breaks down, one that puts chosen
  values on chosen ports, one that shows the context it was given.
-/
import Workflows.NodeType.Activity
namespace Workflows.NodeType.Scripted

/-- Emits its input, after a delay if one is configured. -/
def pass (c : Context) : Activity :=
  match (c.data.member "delay").natural? with
  | some millis => .pause millis (some .canceled) fun _ => .done (.main c.mainInput)
  | none => .done (.main c.mainInput)

/-- Takes its time whatever happens; fails if so configured, else tells whether the run was
asked to cancel meanwhile. -/
def stubborn (c : Context) : Activity :=
  .pause (((c.data.member "delay").natural?).getD 0) none fun canceled =>
    match c.data.text? "fail" with
    | some message => .fail (.failed message)
    | none => .done (.main (.object [("canceled", .bool canceled)]))

/-- Emits the configured values. -/
def ports (c : Context) : Activity := .done (.outputs (c.data.member "ports").membersOf)

/-- Emits its context, and the variable that is asked for. -/
def showContext (c : Context) : Activity :=
  .done (.main (.ofPairs [("executionId", .string c.executionId),
    ("workflowId", .string c.workflowId), ("nodeId", .string c.nodeId),
    ("nodeType", .string c.nodeType), ("data", c.data), ("inputs", .object c.inputs),
    ("variables", .object c.vars),
    ("asked", ((c.data.text? "ask").bind (Keyed.get? c.vars)).getD .null)]))

/-- The activity of a named script. -/
def ofName (script : String) (c : Context) : Activity :=
  match script with
  | "pass" => pass c
  | "stubborn" => stubborn c
  | "ports" => ports c
  | "context" => showContext c
  | "panic" => .done (.breaksDown (some (c.data.member "message").textOf))
  | "panicValue" => .done (.breaksDown none)
  | other => .fail (.failed s!"no behavior '{other}'")

end Workflows.NodeType.Scripted
