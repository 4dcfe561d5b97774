/-
  Workflows.Api.Serve — the engine behind the routes.

  Each request is one call of the engine or of its catalog. A body is read before anything is
  looked up. Only a request to start a run may come without a body. A tool that fails is told
  of in an answer that is otherwise in order; so is a server that does not pass its test.
-/
import Workflows.Api.Answer
import Workflows.Engine.Schedule
namespace Workflows.Api

open Shape (field fieldOpt fieldDef)

/-! ## Bodies -/

/-- Reads a body of a shape. -/
def readBody (shape : Shape) (text : String) : Except Failure Json :=
  (shape.parseText text).mapError .document

def readDefinition (text : String) : Except Failure Definition :=
  (readBody Definition.shape text).map Definition.ofPlain

def startShape : Shape :=
  .record "ExecuteRequest" [fieldDef "data" .any, fieldOpt "idempotencyKey" .text]

/-- The blanks a body may consist of and still count as left out. -/
def isBodyBlank (c : Char) : Bool :=
  c = ' ' || c = '\t' || c = '\n' || c = '\r' || c = '\x0c'

/-- The trigger data and the key of a start; all is left out when there is no body. -/
def readStart (text : String) : Except Failure (Json × Option String) := do
  if text.toList.all isBodyBlank then return (.null, none)
  let j ← readBody startShape text
  return (j.member "data", j.text? "idempotencyKey")

def callShape : Shape :=
  .record "ToolCallRequest" [field "serverId" .text, field "toolName" .text,
    fieldDef "arguments" (.dict .any)]

def readCall (text : String) : Except Failure ToolCall := do
  let j ← readBody callShape text
  return ⟨(j.member "serverId").textOf, (j.member "toolName").textOf,
    (j.member "arguments").membersOf⟩

def readServer (text : String) : Except Failure ToolServer :=
  (readBody ToolServer.shape text).map ToolServer.ofPlain

/-! ## Workflows -/

/-- The answer to a change of the catalog, and what it leaves behind. -/
def afterChange (s : Schedule) (status : Nat) (r : Except Failure (Engine × Definition)) :
    Answer × Schedule :=
  match r with
  | .ok (engine, d) => (.document status d.toJson, { s with engine })
  | .error f => (.ofFailure f, s)

def createWorkflow (s : Schedule) (body : String) : Answer × Schedule :=
  afterChange s 201 (readDefinition body >>= s.engine.createWorkflow)

def importWorkflow (s : Schedule) (body : String) : Answer × Schedule :=
  afterChange s 201 (readBody .any body >>= s.engine.importWorkflow)

def updateWorkflow (s : Schedule) (id body : String) : Answer × Schedule :=
  afterChange s 200 (readDefinition body >>= s.engine.updateWorkflow id)

def deleteWorkflow (s : Schedule) (id : String) : Answer × Schedule :=
  match s.engine.deleteWorkflow id with
  | .ok engine => (.empty 204, { s with engine })
  | .error f => (.ofFailure f, s)

def validateWorkflow (s : Schedule) (id : String) : Except Failure Json :=
  (s.engine.catalog.get id).map fun d => (d.check s.engine.registry).toJson

/-! ## Executions -/

def record (s : Schedule) (run : String) : Except Failure Json :=
  (s.engine.store.get run).map Execution.toJson

/-- Starts a run and answers with its record. -/
def executeWorkflow (s : Schedule) (id body : String) : Answer × Schedule :=
  match readStart body with
  | .error f => (.ofFailure f, s)
  | .ok (trigger, key) =>
    match s.start id trigger key with
    | (.ok run, s) => (.ofResult 202 (record s run), s)
    | (.error f, s) => (.ofFailure f, s)

/-- Asks a run to stop and answers with its record as it is. -/
def stopExecution (s : Schedule) (run : String) : Answer × Schedule :=
  match s.cancel run with
  | (.ok (), s) => (.ofResult 200 (record s run), s)
  | (.error f, s) => (.ofFailure f, s)

def watchExecution (s : Schedule) (run : String) : Answer × Schedule :=
  match s.watch run with
  | (.ok events, s) => (.stream 200 events, s)
  | (.error f, s) => (.ofFailure f, s)

def listExecutions (s : Schedule) (id : String) : Except Failure Json :=
  (s.engine.store.list id).map fun records => .array (records.map Execution.toJson)

/-! ## Tool servers -/

/-- How a server stands, by its listing of tools. -/
def serverJson (name : String) (listing : Except NodeError (List Json)) : Json :=
  let (status, count) := match listing with
    | .ok tools => ("connected", tools.length)
    | .error _ => ("disconnected", 0)
  .object [("id", .string name), ("name", .string name), ("status", .string status),
    ("toolsCount", .ofNat count)]

def listServers (t : ToolService) : Json :=
  .object [("servers", .array (t.names.map fun name => serverJson name (t.tools name)))]

/-- Refuses a server that is not configured. -/
def ensureServer (t : ToolService) (name : String) : Except Failure Unit :=
  if t.names.contains name then .ok () else .error (.serverNotFound name)

def listTools (t : ToolService) (name : String) : Except Failure Json := do
  ensureServer t name
  let tools ← (t.tools name).mapError .node
  return .object [("serverId", .string name), ("tools", .array tools)]

/-- What came of a tool call. -/
def callOutcome : Except NodeError Json → Json
  | .ok result => .object [("result", result), ("success", .bool true)]
  | .error e => .object [("error", .string e.message), ("success", .bool false)]

def callTool (s : Schedule) (body : String) : Answer × Schedule :=
  let request := do
    let call ← readCall body
    ensureServer s.engine.tools call.server
    return call
  match request with
  | .error f => (.ofFailure f, s)
  | .ok call =>
    let (r, s) := s.callTool call
    (.ok (.object [("result", callOutcome r), ("serverId", .string call.server),
      ("toolName", .string call.tool)]), s)

/-- How many tools are shown of a server under test. -/
def previewSize : Nat := 5

def testOutcome : Except NodeError (List Json) → Json
  | .ok tools =>
    .object [("message", .string "Connection successful"), ("success", .bool true),
      ("tools", .array (tools.take previewSize)), ("toolsCount", .ofNat tools.length)]
  | .error e =>
    .object [("message", .string ("Connection test failed: " ++ e.message)),
      ("success", .bool false)]

def testServer (t : ToolService) (body : String) : Except Failure Json :=
  (readServer body).map fun server => testOutcome (t.test server)

/-! ## Requests -/

/-- Does what is asked for; `id` is what the path captures. -/
def perform (s : Schedule) (action : Action) (id body : String) : Answer × Schedule :=
  let e := s.engine
  match action with
  | .health => (.ok (.object [("status", .string "ok")]), s)
  | .listWorkflows => (.ok (.array (e.catalog.list.map Definition.toJson)), s)
  | .createWorkflow => createWorkflow s body
  | .importWorkflow => importWorkflow s body
  | .listNodeTypes => (.ok e.registry.describe, s)
  | .getWorkflow => (.ofResult 200 ((e.catalog.get id).map Definition.toJson), s)
  | .updateWorkflow => updateWorkflow s id body
  | .deleteWorkflow => deleteWorkflow s id
  | .exportWorkflow => (.ofResult 200 (e.catalog.exportDocument id), s)
  | .validateWorkflow => (.ofResult 200 (validateWorkflow s id), s)
  | .executeWorkflow => executeWorkflow s id body
  | .listExecutions => (.ofResult 200 (listExecutions s id), s)
  | .getExecution => (.ofResult 200 (record s id), s)
  | .stopExecution => stopExecution s id
  | .watchExecution => watchExecution s id
  | .listServers => (.ok (listServers e.tools), s)
  | .listTools => (.ofResult 200 (listTools e.tools id), s)
  | .callTool => callTool s body
  | .testServer => (.ofResult 200 (testServer e.tools body), s)

/-- Answers a request. Any page may ask beforehand what it is allowed to ask: everything. -/
def serve (s : Schedule) (r : Request) : Answer × Schedule :=
  if r.method = .options then (.empty 200, s)
  else match resolve r.method r.target with
    | .noRoute => (.empty 404, s)
    | .wrongMethod => (.empty 405, s)
    | .unreadable =>
      (if r.method = .head then Answer.badSegment.headOnly else .badSegment, s)
    | .found action captured =>
      let (answer, after) := perform s action (captured.headD "") r.body
      if r.method = .head then (answer.headOnly, s) else (answer, after)

end Workflows.Api
