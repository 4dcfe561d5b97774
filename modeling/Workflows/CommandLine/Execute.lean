/-
  Workflows.CommandLine.Execute — carrying out a command line.

  The configuration comes first: the file that is named, else `nodeflow.yaml` if it is there,
  else the defaults; over it the variables are laid. Then what the command works on is read,
  then the engine is set up, which checks the configuration and fills the catalog from the
  directory of workflows; then the command is carried out. The first failure ends all. A run
  that does not succeed and a definition that is not well formed are printed and then
  reported as failures.
-/
import Workflows.CommandLine.Usage
import Workflows.CommandLine.Variables
import Workflows.Engine.Schedule
import Workflows.Files.Definitions
import Workflows.Json.Pretty
import Workflows.NodeType.Builtin
import Workflows.Tools.Connections
import Workflows.Web.Exchange
namespace Workflows.CommandLine

/-- Where a command is carried out. -/
structure Site where
  files : FileTree
  environment : Lookup
  ids : IdSupply
  clock : Instant

/-- What carrying out comes to. -/
structure Outcome where
  /-- What the program exits with. -/
  exit : Nat := 0
  printed : String := ""
  /-- What went wrong, unless the words themselves could not be understood. -/
  failure : Option String := none
  /-- How many milliseconds it takes. -/
  elapsed : Nat := 0

namespace Outcome

/-- A document is printed on lines of its own. -/
def ofJson (j : Json) : Outcome := { printed := j.pretty ++ "\n" }

def failed (message : String) : Outcome := { exit := 1, failure := some message }

def ofFailure (f : Failure) : Outcome := failed f.message

/-- What is printed stands, and yet something went wrong. -/
def withFailure (o : Outcome) (message : String) : Outcome :=
  { o with exit := 1, failure := some message }

/-- The answer to words that name no command. -/
def ofStop : Stop → Outcome
  | .misuse => { exit := 2 }
  | .help topic => { printed := usage topic }
  | .version => { printed := versionText }

end Outcome

/-! ## Configuration -/

def defaultConfigFile : String := "nodeflow.yaml"

def variablesFile : String := ".env"

def readConfig (files : FileTree) (path : String) : Except Failure Config :=
  match files.read path with
  | .error e => .error (.config s!"Cannot read {path}: {e.message}")
  | .ok text =>
    match Config.ofYaml text with
    | some c => .ok c
    | none => .error .yaml

/-- The variables, those of the file beside the others. -/
def lookup (s : Site) : Lookup :=
  match s.files.read variablesFile with
  | .ok text => lookupWith s.environment text
  | .error _ => s.environment

def loadConfig (s : Site) (named : Option String) : Except Failure Config := do
  let config ← match named with
    | some path => readConfig s.files path
    | none =>
      if s.files.isFile defaultConfigFile || s.files.isFolder defaultConfigFile then
        readConfig s.files defaultConfigFile
      else pure {}
  config.settle (lookup s)

/-! ## The engine -/

/-- The tool servers of a configuration, none of which can be started. -/
def toolsOf (c : Config) : ToolService :=
  let connections := Connections.ofServers c.toolServers
  let attempt (_ : ToolServer) : Except ConnectError Peer := .error .noCommand
  { names := connections.names,
    tools := fun name => (connections.tools attempt name).1,
    call := fun call => (0, (connections.call attempt call).1),
    test := fun server => server.test attempt }

/-- The definitions the catalog begins with. -/
def initialDefinitions (files : FileTree) (c : Config) : Except Failure (List Definition) :=
  match c.workflowsDir with
  | some folder => files.definitions folder
  | none => .ok []

def engineOf (s : Site) (config : Config) : Except Failure Engine := do
  config.check
  let empty : Engine :=
    { config, registry := NodeType.builtins, tools := toolsOf config, ids := s.ids,
      clock := s.clock, store := if config.database.isSome then .table {} else .memory {} }
  (← initialDefinitions s.files config).foldlM (fun e d => (e.createWorkflow d).map (·.1)) empty

/-- The engine at work, out of reach of any network. -/
def scheduleOf (e : Engine) : Schedule :=
  { engine := e,
    surroundings := { callTool := e.tools.call, fetch := fun r => (0, Web.offline r) } }

/-! ## Commands -/

/-- The trigger data of a run. -/
def readInput : Option String → Except String Json
  | none => .ok .empty
  | some text => (Json.parse text).mapError fun _ => "--input is not valid JSON"

/-- Runs a definition to its end and prints its record. -/
def runDefinition (e : Engine) (d : Definition) (trigger : Json) : Outcome :=
  match (scheduleOf e).startDefinition d trigger none with
  | (.error f, _) => .ofFailure f
  | (.ok id, s) =>
    match s.waitFor id with
    | (.error f, _) => .ofFailure f
    | (.ok record, s) =>
      let printed := { Outcome.ofJson record.toJson with elapsed := s.now }
      if record.status = .success then printed
      else printed.withFailure s!"Execution {record.id} finished with status {record.status.text}"

def validateDefinition (e : Engine) (d : Definition) : Outcome :=
  let found := d.check e.registry
  if found.isValid then .ofJson found.toJson
  else (Outcome.ofJson found.toJson).withFailure s!"Workflow '{d.key}' is invalid"

def planDefinition (d : Definition) : Except Failure Outcome := do
  let plan ← (Plan.ofDefinition d).mapError PlanError.toFailure
  return .ofJson plan.toJson

/-- Sets up the engine after the definition of a file has been read. -/
def withDefinition (s : Site) (config : Config) (file : String)
    (f : Engine → Definition → Except Failure Outcome) : Except Failure Outcome := do
  let d ← s.files.definition file
  let e ← engineOf s config
  f e d

def perform (s : Site) (config : Config) (command : Command) : Except Failure Outcome :=
  match command with
  | .serve port => do
    let config := { config with port := port.getD config.port }
    let e ← engineOf s config
    let _ ← e.pruneExpired
    return .failed s!"Cannot listen on {config.address}"
  | .run file input =>
    match readInput input with
    | .error message => .ok (.failed message)
    | .ok trigger => withDefinition s config file fun e d => .ok (runDefinition e d trigger)
  | .validate file => withDefinition s config file fun e d => .ok (validateDefinition e d)
  | .plan file => withDefinition s config file fun _ d => planDefinition d
  | .nodeTypes => do
    let e ← engineOf s config
    return .ofJson e.registry.describe

/-- Carries out a command line. -/
def execute (s : Site) (words : List String) : Outcome :=
  match Arguments.read words with
  | .error stop => .ofStop stop
  | .ok arguments =>
    let outcome := do
      let config ← loadConfig s arguments.config
      perform s config arguments.command
    match outcome with
    | .ok o => o
    | .error f => .ofFailure f

end Workflows.CommandLine
