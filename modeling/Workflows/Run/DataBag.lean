/-
  Workflows.Run.DataBag — the values a run has produced, and the inputs they make.

  The bag holds, for each node that succeeded, the value on each of its output ports. A node's
  inputs are the values its incoming connections bring: alone on its port a connection brings
  its value, several on one port bring the list of their values in the order of their ids. A
  node without incoming connections receives the trigger of the run on `main`.
-/
import Workflows.Definition.Basic
namespace Workflows

/-- Values by port. -/
abbrev PortValues := Keyed Json

/-- Values by node and output port. -/
abbrev DataBag := Keyed PortValues

namespace DataBag

/-- Adds what a node put out; a port written twice keeps the last value. -/
def record (bag : DataBag) (node : String) (ports : PortValues) : DataBag :=
  Keyed.insert bag node (Keyed.insertAll ((Keyed.get? bag node).getD []) ports)

/-- The value a node produced on a port. -/
def value? (bag : DataBag) (node port : String) : Option Json :=
  (Keyed.get? bag node).bind fun ports => Keyed.get? ports port

def toJson (bag : DataBag) : Json := .object (bag.map fun (node, ports) => (node, .object ports))

/-- Places a connection among connections in ascending order of ids, after its equals. -/
def insertById (c : Connection) : List Connection → List Connection
  | [] => [c]
  | d :: rest => if c.id < d.id then c :: d :: rest else d :: insertById c rest

/-- Connections in ascending order of ids, those of one id as listed. -/
def byId (cs : List Connection) : List Connection := cs.foldl (fun acc c => insertById c acc) []

/-- What a connection brings: `null` when the producer left the port empty. -/
def brought (bag : DataBag) (c : Connection) : Json :=
  (bag.value? c.source c.sourcePort).getD .null

/-- The value of a port that these connections feed. -/
def joined (bag : DataBag) : List Connection → Json
  | [c] => bag.brought c
  | cs => .array (cs.map bag.brought)

/-- The inputs of a node. -/
def inputs (bag : DataBag) (d : Definition) (node : String) (trigger : Json) : PortValues :=
  match byId (d.incoming node) with
  | [] => [(mainPort, trigger)]
  | feeds =>
    let ports := NameSet.ofList (feeds.map Connection.targetPort)
    ports.map fun port => (port, bag.joined (feeds.filter (·.targetPort == port)))

end DataBag
end Workflows
