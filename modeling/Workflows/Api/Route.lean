/-
  Workflows.Api.Route — which request asks for what.

  A path is split at its slashes. A route is a pattern of segments, each a literal or one that
  is captured, and the methods it answers. Patterns are tried in order, and a pattern with a
  literal stands before one that captures in its place: so the workflow `node-types` cannot be
  asked for by its id, while its export can. A captured segment is not empty and is
  percent-decoded; literals are compared as they stand.
-/
import Workflows.Web.Percent
namespace Workflows.Api

inductive Method where
  | get | post | put | delete | head | options
  | other (name : String)
deriving DecidableEq, Repr

def Method.ofText : String → Method
  | "GET" => .get
  | "POST" => .post
  | "PUT" => .put
  | "DELETE" => .delete
  | "HEAD" => .head
  | "OPTIONS" => .options
  | name => .other name

/-- What can be asked for; a captured segment is the id it is about. -/
inductive Action where
  | health
  | listWorkflows | createWorkflow | importWorkflow | listNodeTypes
  | getWorkflow | updateWorkflow | deleteWorkflow | exportWorkflow | validateWorkflow
  | executeWorkflow | listExecutions
  | getExecution | stopExecution | watchExecution
  | listServers | listTools | callTool | testServer
deriving DecidableEq, Repr

/-- A segment of a pattern. -/
inductive Segment where
  | literal (text : String)
  | capture
deriving DecidableEq, Repr

structure Route where
  pattern : List Segment
  actions : List (Method × Action)

namespace Route

/-- The segments that a pattern captures, if the path has that pattern. -/
def captures? : List Segment → List String → Option (List String)
  | [], [] => some []
  | .literal a :: pattern, b :: path => if a = b then captures? pattern path else none
  | .capture :: pattern, b :: path =>
    if b.isEmpty then none else (captures? pattern path).map (b :: ·)
  | _, _ => none

def ofLiterals (names : List String) (rest : List Segment) (actions : List (Method × Action)) :
    Route := ⟨names.map .literal ++ rest, actions⟩

/-- What is under the collection of workflows. -/
def workflows : List Segment → List (Method × Action) → Route :=
  ofLiterals ["api", "v1", "workflows"]

/-- What is under the tool servers. -/
def tools : List Segment → List (Method × Action) → Route := ofLiterals ["api", "v1", "mcp"]

def all : List Route :=
  [ofLiterals ["api", "health"] [] [(.get, .health)],
    workflows [] [(.get, .listWorkflows), (.post, .createWorkflow)],
    workflows [.literal "import"] [(.post, .importWorkflow)],
    workflows [.literal "node-types"] [(.get, .listNodeTypes)],
    workflows [.literal "executions", .capture] [(.get, .getExecution)],
    workflows [.literal "executions", .capture, .literal "stop"] [(.post, .stopExecution)],
    workflows [.literal "executions", .capture, .literal "events"] [(.get, .watchExecution)],
    workflows [.capture]
      [(.get, .getWorkflow), (.put, .updateWorkflow), (.delete, .deleteWorkflow)],
    workflows [.capture, .literal "export"] [(.get, .exportWorkflow)],
    workflows [.capture, .literal "validate"] [(.post, .validateWorkflow)],
    workflows [.capture, .literal "execute"] [(.post, .executeWorkflow)],
    workflows [.capture, .literal "executions"] [(.get, .listExecutions)],
    tools [.literal "servers"] [(.get, .listServers)],
    tools [.literal "servers", .capture, .literal "tools"] [(.get, .listTools)],
    tools [.literal "call"] [(.post, .callTool)],
    tools [.literal "test"] [(.post, .testServer)]]

/-- The first route that a path has, and what is captured. -/
def find? (path : List String) : Option (Route × List String) :=
  all.findSome? fun r => (captures? r.pattern path).map (r, ·)

/-- What a route does on a method; a request for the head alone is one for the whole. -/
def action? (r : Route) (m : Method) : Option Action :=
  let m := if m = .head then .get else m
  (r.actions.find? (·.1 == m)).map (·.2)

end Route

/-- The parts of a text between slashes. -/
def splitSlashes : List Char → List (List Char)
  | [] => [[]]
  | c :: cs =>
    match c == '/', splitSlashes cs with
    | true, parts => [] :: parts
    | false, part :: parts => (c :: part) :: parts
    | false, [] => [[c]]

/-- The segments of the path of a target; what is asked after it is left out. -/
def segments (target : String) : List String :=
  let path := target.toList.takeWhile fun c => c ≠ '?' && c ≠ '#'
  ((splitSlashes path).drop 1).map String.ofList

/-- How a request is understood. -/
inductive Resolution where
  | found (action : Action) (captured : List String)
  | noRoute
  | wrongMethod
  /-- A captured segment does not stand for a text. -/
  | unreadable
deriving DecidableEq

/-- What a request to a target asks for. -/
def resolve (m : Method) (target : String) : Resolution :=
  match Route.find? (segments target) with
  | none => .noRoute
  | some (route, captured) =>
    match route.action? m with
    | none => .wrongMethod
    | some action =>
      match captured.mapM Web.percentDecode? with
      | some captured => .found action captured
      | none => .unreadable

end Workflows.Api
