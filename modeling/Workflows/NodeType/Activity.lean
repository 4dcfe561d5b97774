/-
  Workflows.NodeType.Activity — what a node does once it is started.

  A node sees a `Context` and does an `Activity`: it waits, calls tools, exchanges requests
  and ends. The activity says what the node asks of its surroundings and how it goes on with
  the answer; time and the answers themselves come from whoever carries it out.
-/
import Workflows.Failure
import Workflows.Run.DataBag
namespace Workflows

/-- Everything a node may see. -/
structure Context where
  executionId : String
  workflowId : String
  nodeId : String
  nodeType : String
  /-- The configuration in the definition. -/
  data : Json
  /-- Values by input port. -/
  inputs : PortValues
  vars : Keyed Json
deriving DecidableEq

/-- The value on an input port, `null` when nothing feeds it. -/
def Context.input (c : Context) (port : String) : Json := (Keyed.get? c.inputs port).getD .null

def Context.mainInput (c : Context) : Json := c.input mainPort

/-- The configuration in plain form; no configuration at all counts as an empty object. -/
def Context.config (c : Context) (shape : Shape) : Except NodeError Json :=
  let data := if c.data.isNull then .object [] else c.data
  match shape.conform data with
  | .ok plain => .ok plain
  | .error m => .error (.invalidInput s!"Invalid configuration for node '{c.nodeId}': {m.message}")

/-- How an activity ends. -/
inductive Ending where
  | outputs (ports : PortValues)
  | fails (error : NodeError)
  /-- It breaks down, with a text to say why or without. -/
  | breaksDown (reason : Option String)
deriving DecidableEq

/-- One value on `main`. -/
def Ending.main (value : Json) : Ending := .outputs [(mainPort, value)]

/-- A call of a tool on a named server. -/
structure ToolCall where
  server : String
  tool : String
  arguments : Keyed Json
deriving DecidableEq

/-- A request for a web server. -/
structure WebRequest where
  method : String
  url : String
  /-- Headers to send, by name as configured. -/
  headers : Keyed String
  body : Option Json
deriving DecidableEq

/-- The answer of a web server: headers in the order they came, names in lower case. -/
structure WebResponse where
  status : Nat
  headers : List (String × String)
  body : String
deriving DecidableEq

/-- What a node does. -/
inductive Activity where
  | done (ending : Ending)
  /-- Waits, and never ends. -/
  | hang
  /-- Works and lets nothing come in between: no request to cancel and no timeout. -/
  | busy (millis : Nat) (next : Activity)
  /-- Waits; a request to cancel ends the wait with the failure, if there is one. `next` is
  told whether the run had been asked to cancel by the end of the wait. -/
  | pause (millis : Nat) (whenCanceled : Option NodeError) (next : Bool → Activity)
  /-- Calls a tool; a request to cancel ends the wait for its answer. -/
  | callTool (call : ToolCall) (next : Except NodeError Json → Activity)
  /-- Sends a request; a request to cancel ends the wait for its answer. -/
  | fetch (request : WebRequest) (next : Except NodeError WebResponse → Activity)

def Activity.fail (e : NodeError) : Activity := .done (.fails e)

/-- Ends at once with the failure, or goes on. -/
def Activity.ofExcept {α : Type} (r : Except NodeError α) (next : α → Activity) : Activity :=
  match r with
  | .ok a => next a
  | .error e => .fail e

/-- A kind of node: its description and what its nodes do. -/
structure NodeType where
  name : String
  displayName : String := name
  description : String
  group : String := "core"
  /-- The ports of a node that declares none. -/
  inputs : List String := [mainPort]
  outputs : List String := [mainPort]
  /-- What the configuration looks like. -/
  schema : Option Json := none
  /-- Whether a node without configuration deserves a warning. -/
  requiresConfig : Bool := schema.isSome
  /-- Whether a node breaks down before it comes to any activity. -/
  collapses : Context → Bool := fun _ => false
  act : Context → Activity

namespace NodeType

/-- The description shown to editors. -/
def describe (t : NodeType) : Json :=
  .record [("description", some (.string t.description)),
    ("displayName", some (.string t.displayName)), ("group", some (.string t.group)),
    ("inputs", some (.ofStrings t.inputs)), ("name", some (.string t.name)),
    ("outputs", some (.ofStrings t.outputs)), ("requiresConfig", some (.bool t.requiresConfig)),
    ("schema", t.schema)]

end NodeType

/-- The node types that are known, by name. A run keeps the registry it started with. -/
abbrev Registry := Keyed NodeType

namespace Registry

/-- Adds a type; one of the same name is replaced. -/
def register (r : Registry) (t : NodeType) : Registry := Keyed.insert r t.name t

def resolve? (r : Registry) (name : String) : Option NodeType := Keyed.get? r name

/-- Descriptions by group, then name. -/
def describe (r : Registry) : Json :=
  .object (r.foldl (fun groups (name, t) =>
    let group := (Keyed.get? groups t.group).map Json.membersOf |>.getD []
    Keyed.insert groups t.group (.object (Keyed.insert group name t.describe))) [])

end Registry
end Workflows
