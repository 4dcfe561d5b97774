/-
  Workflows.Definition.Codec — definitions as documents.

  `Definition.toJson` writes a definition; members that are absent are left out, except the id
  and the error workflow, which are then `null`. Reading goes through `Definition.shape`.
-/
import Workflows.Definition.Basic
import Workflows.Shape.ReadText
import Workflows.Shape.ConformYaml
namespace Workflows

open Shape (field fieldOpt fieldDef)

/-- An optional text of a plain document. -/
def Json.text? (j : Json) (key : String) : Option String := (j.member key).string?

/-- An optional timestamp of a plain document. -/
def Json.time? (j : Json) (key : String) : Option Instant :=
  (j.text? key).bind fun s => (Instant.parse s).toOption

def Json.ofInstant (t : Instant) : Json := .string t.text

/-! ## Writing -/

def Position.toJson (p : Position) : Json := .object [("x", .double p.x), ("y", .double p.y)]

def PortDecl.toJson : PortDecl → Json
  | .names ports => .ofStrings ports
  | .described ports => .object ports

def Node.toJson (n : Node) : Json :=
  .record [("data", some n.data), ("id", some (.string n.id)),
    ("inputs", n.inputs.map PortDecl.toJson), ("name", n.name.map .string),
    ("outputs", n.outputs.map PortDecl.toJson), ("position", some n.position.toJson),
    ("type", some (.string n.type))]

def Connection.toJson (c : Connection) : Json :=
  .record [("id", some (.string c.id)), ("source", some (.string c.source)),
    ("sourceHandle", c.sourceHandle.map .string), ("target", some (.string c.target)),
    ("targetHandle", c.targetHandle.map .string)]

def SavePolicy.text : SavePolicy → String
  | .all => "all"
  | .none => "none"

def Settings.toJson (s : Settings) : Json :=
  .object [("errorWorkflow", .ofOption .string s.errorWorkflow),
    ("saveDataErrorExecution", .string s.saveOnError.text),
    ("saveDataSuccessExecution", .string s.saveOnSuccess.text),
    ("timezone", .string s.timezone)]

def Definition.toJson (d : Definition) : Json :=
  .record [("connections", some (.array (d.connections.map Connection.toJson))),
    ("createdAt", d.createdAt.map .ofInstant), ("description", d.description.map .string),
    ("id", some (.ofOption .string d.id)), ("name", some (.string d.name)),
    ("nodes", some (.array (d.nodes.map Node.toJson))), ("settings", some d.settings.toJson),
    ("tags", if d.tags.isEmpty then none else some (.ofStrings d.tags)),
    ("updatedAt", d.updatedAt.map .ofInstant), ("variables", some (.object d.vars)),
    ("version", some (.ofNat d.version))]

/-! ## Shapes -/

def Position.shape : Shape := .record "Position" [field "x" .double, field "y" .double]

def Node.shape : Shape :=
  .record "Node" [field "id" .text, field "type" .text, fieldOpt "name" .text,
    fieldDef "position" Position.shape, fieldDef "data" .any,
    fieldOpt "inputs" (.names "PortDecl"), fieldOpt "outputs" (.names "PortDecl")]

def Connection.shape : Shape :=
  .record "Edge" [field "id" .text, field "source" .text, field "target" .text,
    fieldOpt "sourceHandle" .text, fieldOpt "targetHandle" .text]

def SavePolicy.shape : Shape := .oneOf ["all", "none"]

def Settings.shape : Shape :=
  .record "WorkflowSettings" [fieldOpt "errorWorkflow" .text, fieldDef "timezone" .text,
    fieldDef "saveDataErrorExecution" SavePolicy.shape,
    fieldDef "saveDataSuccessExecution" SavePolicy.shape]

def Definition.shape : Shape :=
  .record "WorkflowDefinition" [fieldOpt "id" .text, fieldDef "version" .u32, field "name" .text,
    fieldOpt "description" .text, fieldDef "nodes" (.list Node.shape),
    fieldDef "connections" (.list Connection.shape), fieldDef "variables" (.dict .any),
    fieldDef "settings" Settings.shape, fieldDef "tags" (.list .text),
    fieldOpt "createdAt" .time, fieldOpt "updatedAt" .time]

/-! ## Taking records from plain documents -/

def Json.doubleOf : Json → Binary64
  | .double x => x
  | _ => .zero

def Position.ofPlain (j : Json) : Position := ⟨(j.member "x").doubleOf, (j.member "y").doubleOf⟩

def PortDecl.ofPlain? : Json → Option PortDecl
  | .array items => some (.names (items.map Json.textOf))
  | .object members => some (.described members)
  | _ => none

def Node.ofPlain (j : Json) : Node :=
  { id := (j.member "id").textOf, type := (j.member "type").textOf, name := j.text? "name",
    position := ((j.member? "position").map Position.ofPlain).getD ⟨.zero, .zero⟩,
    data := j.member "data", inputs := PortDecl.ofPlain? (j.member "inputs"),
    outputs := PortDecl.ofPlain? (j.member "outputs") }

def Connection.ofPlain (j : Json) : Connection :=
  { id := (j.member "id").textOf, source := (j.member "source").textOf,
    target := (j.member "target").textOf, sourceHandle := j.text? "sourceHandle",
    targetHandle := j.text? "targetHandle" }

def SavePolicy.ofPlain (j : Json) : SavePolicy := if j = .string "none" then .none else .all

def Settings.ofPlain (j : Json) : Settings :=
  { errorWorkflow := j.text? "errorWorkflow", timezone := (j.text? "timezone").getD "UTC",
    saveOnError := .ofPlain (j.member "saveDataErrorExecution"),
    saveOnSuccess := .ofPlain (j.member "saveDataSuccessExecution") }

def Definition.ofPlain (j : Json) : Definition :=
  { id := j.text? "id", version := ((j.member "version").natural?).getD 1,
    name := (j.member "name").textOf, description := j.text? "description",
    nodes := (j.member "nodes").itemsOf.map Node.ofPlain,
    connections := (j.member "connections").itemsOf.map Connection.ofPlain,
    vars := (j.member "variables").membersOf, settings := .ofPlain (j.member "settings"),
    tags := (j.member "tags").itemsOf.map Json.textOf, createdAt := j.time? "createdAt",
    updatedAt := j.time? "updatedAt" }

/-! ## Reading -/

/-- The definition a JSON value holds. -/
def Definition.ofJson (j : Json) : Except Mismatch Definition :=
  (Definition.shape.conform j).map Definition.ofPlain

/-- The definition a JSON text holds. -/
def Definition.ofText (text : String) : Except DecodeError Definition :=
  (Definition.shape.parseText text).map Definition.ofPlain

/-- The definition a YAML text holds. -/
def Definition.ofYaml (text : String) : Option Definition :=
  (Definition.shape.parseYaml text).map Definition.ofPlain

end Workflows
