/-
  Workflows.Definition.Check — whether a definition is well formed.

  `Definition.check` lists errors, which forbid a run, and warnings, which do not. It looks
  only at the definition and at a registry, and reports in the order in which nodes and
  connections are listed.
-/
import Workflows.NodeType.Activity
namespace Workflows

/-- What a check found. -/
structure Findings where
  errors : List Issue
  warnings : List Issue
deriving DecidableEq

def Findings.isValid (f : Findings) : Bool := f.errors.isEmpty

/-- The warnings, or the errors if there are any. -/
def Findings.toExcept (f : Findings) : Except Failure (List Issue) :=
  if f.errors.isEmpty then .ok f.warnings else .error (.invalid f.errors)

def Findings.toJson (f : Findings) : Json :=
  .object [("errors", .array (f.errors.map Issue.toJson)),
    ("warnings", .array (f.warnings.map Issue.toJson))]

/-- The input ports of a node: those it declares, else those of its type. -/
def Node.inputPorts? (n : Node) (types : Registry) : Option (List String) :=
  match n.inputs with
  | some decl => some decl.toList
  | none => (types.resolve? n.type).map (·.inputs)

/-- The output ports of a node: those it declares, else those of its type. -/
def Node.outputPorts? (n : Node) (types : Registry) : Option (List String) :=
  match n.outputs with
  | some decl => some decl.toList
  | none => (types.resolve? n.type).map (·.outputs)

namespace Definition

/-- An issue if something holds. -/
def reportIf (condition : Bool) (issue : Issue) : List Issue := if condition then [issue] else []

/-- Errors of a node, given the ids of those before it. -/
def nodeErrors (types : Registry) (before : List String) (n : Node) : List Issue :=
  reportIf (Text.isBlank n.id) (.ofNode n.id "Node id must not be empty")
    ++ reportIf (before.contains n.id) (.ofNode n.id "Duplicate node id")
    ++ reportIf (types.resolve? n.type).isNone (.ofNode n.id s!"Unknown node type '{n.type}'")

def allNodeErrors (types : Registry) : (before : List String) → List Node → List Issue
  | _, [] => []
  | before, n :: rest => nodeErrors types before n ++ allNodeErrors types (n.id :: before) rest

def sourceErrors (d : Definition) (types : Registry) (c : Connection) : List Issue :=
  match d.node? c.source with
  | none => [.ofConnection c.id s!"Source node '{c.source}' does not exist"]
  | some n =>
    match n.outputPorts? types with
    | none => []
    | some ports =>
      reportIf (!ports.contains c.sourcePort)
        (.ofConnection c.id s!"Node '{n.id}' has no output port '{c.sourcePort}'")

def targetErrors (d : Definition) (types : Registry) (c : Connection) : List Issue :=
  match d.node? c.target with
  | none => [.ofConnection c.id s!"Target node '{c.target}' does not exist"]
  | some n =>
    match n.inputPorts? types with
    | none => []
    | some ports =>
      reportIf (!ports.contains c.targetPort)
        (.ofConnection c.id s!"Node '{n.id}' has no input port '{c.targetPort}'")

/-- Errors of a connection, given those before it. -/
def connectionErrors (d : Definition) (types : Registry) (before : List Connection)
    (c : Connection) : List Issue :=
  reportIf (before.any (·.id == c.id)) (.ofConnection c.id "Duplicate connection id")
    ++ reportIf (before.any fun b => b.ends = c.ends) (.ofConnection c.id
      s!"Duplicate connection {c.source}:{c.sourcePort} -> {c.target}:{c.targetPort}")
    ++ d.sourceErrors types c ++ d.targetErrors types c

def allConnectionErrors (d : Definition) (types : Registry) : (before : List Connection) →
    List Connection → List Issue
  | _, [] => []
  | before, c :: rest =>
    d.connectionErrors types before c ++ d.allConnectionErrors types (c :: before) rest

/-- In a definition of several nodes, those that no connection touches. -/
def looseNodes (d : Definition) : List Issue :=
  if d.nodes.length ≤ 1 then []
  else
    (d.nodes.filter fun n => !d.connections.any fun c => c.source == n.id || c.target == n.id).map
      fun n => .ofNode n.id "Node is not connected to the workflow"

/-- Nodes without configuration whose type asks for one. -/
def unconfiguredNodes (d : Definition) (types : Registry) : List Issue :=
  (d.nodes.filter fun n =>
    n.hasNoData && ((types.resolve? n.type).map (·.requiresConfig)).getD false).map
    fun n => .ofNode n.id "Node configuration is incomplete"

/-- Everything there is to say about a definition, given the types that are known. -/
def check (d : Definition) (types : Registry) : Findings where
  errors := allNodeErrors types [] d.nodes ++ d.allConnectionErrors types [] d.connections
  warnings := d.looseNodes ++ d.unconfiguredNodes types

end Definition
end Workflows
