/-
  Workflows.Definition.Basic — workflow definitions.

  A definition is a graph: nodes, each of a type that says what it does, and connections from
  an output port of one node to an input port of another. A connection that names no port
  means `main`.
-/
import Workflows.Json.Basic
import Workflows.Time.Instant
namespace Workflows

/-- The port of a connection that names none. -/
def mainPort : String := "main"

/-- Where an editor shows a node; runs ignore it. -/
structure Position where
  x : Binary64
  y : Binary64
deriving DecidableEq, Inhabited

/-- The ports a node declares: names, or names with a description each. -/
inductive PortDecl where
  | names (ports : List String)
  | described (ports : Keyed Json)
deriving DecidableEq

def PortDecl.toList : PortDecl → List String
  | .names ports => ports
  | .described ports => Keyed.keys ports

/-- A node of a workflow. -/
structure Node where
  id : String
  type : String
  name : Option String := none
  position : Position := ⟨.zero, .zero⟩
  /-- Configuration handed to the node's type. -/
  data : Json := .null
  inputs : Option PortDecl := none
  outputs : Option PortDecl := none
deriving DecidableEq

/-- Whether there is no configuration at all. -/
def Node.hasNoData (n : Node) : Bool := n.data = .null || n.data = .object []

/-- A connection from an output port of `source` to an input port of `target`. -/
structure Connection where
  id : String
  source : String
  target : String
  sourceHandle : Option String := none
  targetHandle : Option String := none
deriving DecidableEq

namespace Connection

def sourcePort (c : Connection) : String := c.sourceHandle.getD mainPort

def targetPort (c : Connection) : String := c.targetHandle.getD mainPort

/-- The two ends: what makes two connections the same whatever their ids. -/
def ends (c : Connection) : String × String × String × String :=
  (c.source, c.sourcePort, c.target, c.targetPort)

end Connection

/-- Whether the payloads of a finished run are kept. -/
inductive SavePolicy where
  | all | none
deriving DecidableEq, Repr

structure Settings where
  /-- The workflow started when a run ends in error. -/
  errorWorkflow : Option String := .none
  timezone : String := "UTC"
  saveOnError : SavePolicy := .all
  saveOnSuccess : SavePolicy := .all
deriving DecidableEq

/-- A workflow definition. -/
structure Definition where
  /-- The id in the catalog, once it is there. -/
  id : Option String := none
  version : Nat := 1
  name : String
  description : Option String := none
  nodes : List Node := []
  connections : List Connection := []
  vars : Keyed Json := []
  settings : Settings := {}
  tags : List String := []
  createdAt : Option Instant := none
  updatedAt : Option Instant := none
deriving DecidableEq

namespace Definition

/-- The id, or the name of a definition that has none. -/
def key (d : Definition) : String := d.id.getD d.name

/-- The first node of that id. -/
def node? (d : Definition) (id : String) : Option Node := d.nodes.find? (·.id == id)

/-- Connections into a node, as listed. -/
def incoming (d : Definition) (id : String) : List Connection :=
  d.connections.filter (·.target == id)

/-- Connections out of a node, as listed. -/
def outgoing (d : Definition) (id : String) : List Connection :=
  d.connections.filter (·.source == id)

end Definition
end Workflows
