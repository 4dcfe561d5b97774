/-
  Workflows.NodeType.Builtin — the node types that are always there.

  `trigger`, `set`, `merge`, `wait` and `fail` need nothing but their context; `mcp-tool` calls
  a tool and `http` exchanges a request with a web server.
-/
import Workflows.NodeType.Activity
import Workflows.Text.Case
namespace Workflows.NodeType

open Shape (field fieldOpt fieldDef)

/-- The schema of a configuration: its title and its properties, and which must be there. -/
def schemaOf (title : String) (properties : List (String × Json)) (required : List String := []) :
    Json :=
  .ofPairs ([("$schema", .string "http://json-schema.org/draft-07/schema#"),
    ("title", .string title), ("type", .string "object"), ("properties", .ofPairs properties)]
    ++ (if required.isEmpty then [] else [("required", .ofStrings required)]))

/-- A property of a schema. -/
def property (type description : String) (more : List (String × Json) := []) : Json :=
  .ofPairs ((if type.isEmpty then [] else [("type", .string type)])
    ++ (if description.isEmpty then [] else [("description", .string description)]) ++ more)

/-- Emits the data the run was triggered with. -/
def trigger : NodeType where
  name := "trigger"
  displayName := "Manual Trigger"
  description := "Starts the workflow with the data it was triggered with"
  group := "trigger"
  act c := .done (.main c.mainInput)

/-- Emits fixed values, over the incoming object if asked to. -/
def set : NodeType where
  name := "set"
  displayName := "Set"
  description := "Set fields on the data passed to the next node"
  schema := some (schemaOf "SetConfig" [
    ("values", property "object" "Fields to emit"
      [("additionalProperties", .bool true), ("default", .object [])]),
    ("keepInput", property "boolean" "Merge the fields over the incoming object instead of replacing it"
      [("default", .bool false)])])
  act c :=
    .ofExcept (c.config (.record "SetConfig" [fieldDef "values" (.dict .any),
      fieldDef "keepInput" .boolean])) fun config =>
      let below := if config.member "keepInput" = .bool true then c.mainInput.membersOf else []
      .done (.main (.object (Keyed.insertAll below (config.member "values").membersOf)))

/-- Emits its inputs as one object, by port. -/
def merge : NodeType where
  name := "merge"
  displayName := "Merge"
  description := "Combine the outputs of several branches into one object"
  act c := .done (.main (.object c.inputs))

/-- Waits, then emits its input; a request to cancel ends the wait. -/
def wait : NodeType where
  name := "wait"
  displayName := "Wait"
  description := "Wait for a number of milliseconds before continuing"
  schema := some (schemaOf "WaitConfig" [
    ("millis", property "integer" "Delay in milliseconds" [("default", .integer 0),
      ("format", .string "uint64"), ("minimum", .double .zero)])])
  act c :=
    .ofExcept (c.config (.record "WaitConfig" [fieldDef "millis" Shape.u64])) fun config =>
      .pause (config.member "millis").natOf (some .canceled) fun _ => .done (.main c.mainInput)

/-- Always fails. -/
def fail : NodeType where
  name := "fail"
  displayName := "Stop and Error"
  description := "Fail the node with a custom message"
  schema := some (schemaOf "FailConfig" [
    ("message", property "" "Error message reported for the node"
      [("default", .null), ("type", .ofStrings ["string", "null"])])])
  act c :=
    .ofExcept (c.config (.record "FailConfig" [fieldOpt "message" .text])) fun config =>
      .fail (.failed ((config.text? "message").getD "Workflow stopped by fail node"))

/-- Calls a tool with its input object under fixed arguments, and emits the answer. -/
def mcpTool : NodeType where
  name := "mcp-tool"
  displayName := "MCP Tool"
  description := "Call a tool on a configured MCP server"
  group := "integrations"
  schema := some (schemaOf "McpToolConfig" [
    ("server", property "string" "Name of a configured MCP server"),
    ("tool", property "string" ""),
    ("arguments", property "object" "Fixed arguments, laid over the node's input object"
      [("additionalProperties", .bool true), ("default", .object [])])] ["server", "tool"])
  act c :=
    .ofExcept (c.config (.record "McpToolConfig" [field "server" .text, field "tool" .text,
      fieldDef "arguments" (.dict .any)])) fun config =>
      .callTool ⟨(config.member "server").textOf, (config.member "tool").textOf,
        Keyed.insertAll c.mainInput.membersOf (config.member "arguments").membersOf⟩
        fun answer => .ofExcept answer fun value => .done (.main value)

/-- The characters of a request method. -/
def isMethodChar (c : Char) : Bool :=
  c.isAlphanum || "!#$%&'*+-.^_\x60|~".toList.contains c

def isMethod (s : String) : Bool := !s.isEmpty && s.toList.all isMethodChar

/-- How much of an answer is quoted when it reports a failure. -/
def excerptLength : Nat := 200

/-- What a node emits for the answer to its request. -/
def endingOfResponse (url : String) (r : WebResponse) : Ending :=
  if 200 ≤ r.status ∧ r.status < 300 then
    let body := match Json.parse r.body with
      | .ok j => j
      | .error _ => .string r.body
    .main (.object [("body", body),
      ("headers", .ofPairs (r.headers.map fun (k, v) => (k, .string v))),
      ("status", .ofNat r.status)])
  else
    let excerpt := String.ofList (r.body.toList.take excerptLength)
    .fails (.failed s!"HTTP {r.status} from {url}: {excerpt}")

/-- Exchanges a request with a web server and emits status, headers and body. The body sent is
the configured one, else the input unless the method is GET or HEAD or the input `null`. -/
def http : NodeType where
  name := "http"
  displayName := "HTTP Request"
  description := "Make an HTTP request and return the response"
  group := "integrations"
  schema := some (schemaOf "HttpConfig" [
    ("method", property "string" "HTTP method, GET when omitted" [("default", .string "GET")]),
    ("url", property "string" ""),
    ("headers", property "object" "" [("additionalProperties", property "string" ""),
      ("default", .object [])]),
    ("body", property "" "Request body; defaults to the node's input for methods other than GET/HEAD"
      [("default", .null)])] ["url"])
  act c :=
    .ofExcept (c.config (.record "HttpConfig" [fieldDef "method" .text, field "url" .text,
      fieldDef "headers" (.dict .text), fieldOpt "body" .any])) fun config =>
      let configured := (config.text? "method").getD "GET"
      let method := Text.toUpper configured
      if isMethod method then
        let url := (config.member "url").textOf
        let sendsInput := method ≠ "GET" && method ≠ "HEAD" && !c.mainInput.isNull
        .fetch { method, url,
                 headers := Keyed.mapValues Json.textOf (config.member "headers").membersOf,
                 body := (config.member "body").unlessNull? <|>
                   (if sendsInput then some c.mainInput else none) }
          fun answer => .ofExcept answer fun r => .done (endingOfResponse url r)
      else .fail (.invalidInput s!"Invalid HTTP method '{configured}'")

/-- The node types that are always there. -/
def builtins : Registry :=
  [trigger, set, merge, wait, fail, http, mcpTool].foldl Registry.register []

end Workflows.NodeType
