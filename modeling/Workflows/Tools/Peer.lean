/-
  Workflows.Tools.Peer — a connected tool server, and what clients make of its answers.

  A peer lists its tools in pages and answers calls, or refuses with a coded error. An answer
  that reports an error of its own counts as a failure of the tool.
-/
import Workflows.Json.Text
import Workflows.Tools.Service
namespace Workflows

/-- A refusal by a peer. -/
structure PeerError where
  code : Int
  message : String
  data : Option Json := none
deriving DecidableEq

def PeerError.text (e : PeerError) : String :=
  let data := match e.data with
    | some d => "(" ++ d.compact ++ ")"
    | none => ""
  s!"Mcp error: {e.code}: {e.message}{data}"

/-- A connected tool server. -/
structure Peer where
  pages : Except PeerError (List (List Json))
  call : String → Keyed Json → Except PeerError Json

namespace Peer

/-- The tools of all pages. -/
def tools (p : Peer) (server : String) : Except NodeError (List Json) :=
  match p.pages with
  | .ok pages => .ok pages.flatten
  | .error e => .error (.failed s!"Listing tools of MCP server '{server}' failed: {e.text}")

/-- The answer of a tool. -/
def answer (p : Peer) (tool : String) (arguments : Keyed Json) : Except NodeError Json :=
  match p.call tool arguments with
  | .error e => .error (.failed s!"MCP tool '{tool}' failed: {e.text}")
  | .ok result =>
    if result.member "isError" = .bool true then
      let content := (result.member "content").compact
      .error (.failed s!"MCP tool '{tool}' reported an error: {content}")
    else .ok result

end Peer

/-- Why no connection was made. -/
inductive ConnectError where
  /-- The command could not be started. -/
  | notStarted (cause : FileError)
  /-- The server did not come to terms, in the words of the protocol. -/
  | handshake (message : String)
deriving DecidableEq, Repr

namespace ConnectError

/-- There is no such command. -/
def noCommand : ConnectError := .notStarted .notFound

/-- The server hung up before it was ready. -/
def hungUp : ConnectError := .handshake "connection closed: initialize response"

/-- A failed connection, as the failure of an operation. -/
def toFailure (server : String) : ConnectError → Failure
  | .notStarted cause => .io cause
  | .handshake message => .other s!"Failed to initialize MCP server '{server}': {message}"

end ConnectError
end Workflows
