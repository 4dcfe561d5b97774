/-
  Workflows.Config.Basic — how an engine is set up.

  Every setting has a default. A configuration is read from a document, then named variables
  of the surroundings are laid over it (`Config.override`), then it is checked
  (`Config.check`). Timeouts are whole seconds.
-/
import Workflows.Failure
namespace Workflows

open Shape (field fieldOpt fieldDef)

/-- A tool server: the command that starts it speaks the tool protocol on its streams. -/
structure ToolServer where
  name : String
  command : String
  arguments : List String := []
deriving DecidableEq

def ToolServer.shape : Shape :=
  .record "McpServerConfig" [field "name" .text, field "command" .text,
    fieldDef "args" (.list .text)]

def ToolServer.ofPlain (j : Json) : ToolServer :=
  { name := (j.member "name").textOf, command := (j.member "command").textOf,
    arguments := (j.member "args").itemsOf.map Json.textOf }

def ToolServer.ofJson (j : Json) : Except Mismatch ToolServer :=
  (ToolServer.shape.conform j).map ToolServer.ofPlain

def ToolServer.toJson (s : ToolServer) : Json :=
  .object [("args", .ofStrings s.arguments), ("command", .string s.command),
    ("name", .string s.name)]

structure Config where
  /-- How many nodes of one run may be in flight. -/
  maxConcurrency : Nat := 4
  nodeTimeout : Nat := 300
  /-- Timeouts of particular node types. -/
  nodeTimeouts : Keyed Nat := []
  /-- The timeout of a whole run; a run without one may take for ever. -/
  runTimeout : Option Nat := none
  /-- Where executions are kept; without it they are lost with the process. -/
  database : Option String := none
  /-- A directory of definitions to begin with. -/
  workflowsDir : Option String := none
  host : String := "127.0.0.1"
  port : Nat := 8080
  toolServers : List ToolServer := []
  /-- Age in days from which finished executions may be deleted. -/
  maxAgeDays : Option Nat := none
deriving DecidableEq


namespace Config

/-- The timeout of one node of a type. -/
def timeoutOf (c : Config) (type : String) : Nat := (Keyed.get? c.nodeTimeouts type).getD c.nodeTimeout

def address (c : Config) : String := s!"{c.host}:{c.port}"

/-! ## Documents -/

def shape : Shape :=
  .record "EngineConfig" [fieldDef "max_concurrency" Shape.usize,
    fieldDef "node_timeout_secs" Shape.u64, fieldDef "node_timeouts" (.dict Shape.u64),
    fieldOpt "run_timeout_secs" Shape.u64, fieldOpt "database" .path,
    fieldOpt "workflows_dir" .path,
    fieldDef "server" (.record "ServerConfig" [fieldDef "host" .text, fieldDef "port" Shape.u16]),
    fieldDef "mcp_servers" (.list ToolServer.shape),
    fieldDef "retention" (.record "RetentionConfig" [fieldOpt "max_age_days" Shape.u64])]

/-- The configuration of a plain document; what it leaves out keeps its default. -/
def ofPlain (j : Json) : Config :=
  let server := j.member "server"
  { maxConcurrency := ((j.member "max_concurrency").natural?).getD 4,
    nodeTimeout := ((j.member "node_timeout_secs").natural?).getD 300,
    nodeTimeouts := Keyed.mapValues Json.natOf (j.member "node_timeouts").membersOf,
    runTimeout := (j.member "run_timeout_secs").natural?,
    database := j.text? "database", workflowsDir := j.text? "workflows_dir",
    host := (server.text? "host").getD "127.0.0.1",
    port := ((server.member "port").natural?).getD 8080,
    toolServers := (j.member "mcp_servers").itemsOf.map ToolServer.ofPlain,
    maxAgeDays := ((j.member "retention").member "max_age_days").natural? }

def ofJson (j : Json) : Except Mismatch Config := (shape.conform j).map ofPlain

def ofYaml (text : String) : Option Config := (shape.parseYaml text).map ofPlain

def toJson (c : Config) : Json :=
  .object [("database", .ofOption .string c.database), ("max_concurrency", .ofNat c.maxConcurrency),
    ("mcp_servers", .array (c.toolServers.map ToolServer.toJson)),
    ("node_timeout_secs", .ofNat c.nodeTimeout),
    ("node_timeouts", .object (Keyed.mapValues .ofNat c.nodeTimeouts)),
    ("retention", .object [("max_age_days", .ofOption .ofNat c.maxAgeDays)]),
    ("run_timeout_secs", .ofOption .ofNat c.runTimeout),
    ("server", .object [("host", .string c.host), ("port", .ofNat c.port)]),
    ("workflows_dir", .ofOption .string c.workflowsDir)]

end Config
end Workflows
