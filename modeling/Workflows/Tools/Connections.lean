/-
  Workflows.Tools.Connections — connections to the configured tool servers.

  Each server has a slot of its own. The first to use a server connects, and whoever wants it
  meanwhile waits; once connected all users share the connection. When connecting fails the
  slot is empty again and the next use connects anew. An unknown server connects to nothing.
  Using a server is a sequence of atomic steps (`Use.step?`), so any number of users may
  overlap; how an attempt turns out is told when it does.
-/
import Workflows.Tools.Peer
namespace Workflows

/-- The connection of one server. -/
inductive Slot where
  | empty
  /-- Someone is connecting. -/
  | connecting
  | connected (peer : Peer)

/-- The slots of the configured servers, by name. -/
structure Connections where
  slots : Keyed (ToolServer × Slot) := []
  /-- The servers to which a connection was attempted, in order. -/
  attempts : List String := []

namespace Connections

/-- Of servers with one name the last is kept. -/
def ofServers (servers : List ToolServer) : Connections :=
  { slots := Keyed.ofList (servers.map fun s => (s.name, (s, .empty))) }

/-- The names of the servers, ascending. -/
def names (c : Connections) : List String := Keyed.keys c.slots

def has (c : Connections) (name : String) : Bool := c.names.contains name

def setSlot (c : Connections) (name : String) (slot : Slot) : Connections :=
  { c with slots := Keyed.modify c.slots name fun (s, _) => (s, slot) }

end Connections

/-- Someone who wants to use a server, between two steps. -/
inductive Use where
  /-- Looks at the slot. -/
  | look (name : String)
  /-- Waits for the attempt to turn out. -/
  | connect (server : ToolServer)
  | settled (result : Except Failure Peer)

namespace Use

def unknown (name : String) : Failure := .config s!"Unknown MCP server '{name}'"

/-- The next step; none while someone else is connecting, or when nothing is left to do.
`attempt` says how connecting turns out. -/
def step? (u : Use) (attempt : ToolServer → Except ConnectError Peer) (c : Connections) :
    Option (Use × Connections) :=
  match u with
  | .look name =>
    match Keyed.get? c.slots name with
    | none => some (.settled (.error (unknown name)), c)
    | some (_, .connected peer) => some (.settled (.ok peer), c)
    | some (_, .connecting) => none
    | some (server, .empty) =>
      some (.connect server, { c.setSlot name .connecting with attempts := c.attempts ++ [name] })
  | .connect server =>
    match attempt server with
    | .ok peer => some (.settled (.ok peer), c.setSlot server.name (.connected peer))
    | .error e => some (.settled (.error (e.toFailure server.name)), c.setSlot server.name .empty)
  | .settled _ => none

/-- Takes up to `n` steps, one after the other. -/
def advance (attempt : ToolServer → Except ConnectError Peer) :
    (n : Nat) → Use → Connections → Use × Connections
  | 0, u, c => (u, c)
  | n + 1, u, c =>
    match u.step? attempt c with
    | some (u, c) => advance attempt n u c
    | none => (u, c)

def result : Use → Except Failure Peer
  | .settled r => r
  | _ => .error (.other "connection is pending")

end Use

namespace Connections

/-- Uses a server with no one else around. -/
def service (c : Connections) (attempt : ToolServer → Except ConnectError Peer) (name : String) :
    Except Failure Peer × Connections :=
  let (u, c) := (Use.look name).advance attempt 2 c
  (u.result, c)

/-- Uses a server on behalf of a node. -/
def serviceFor (c : Connections) (attempt : ToolServer → Except ConnectError Peer)
    (name : String) : Except NodeError Peer × Connections :=
  if c.has name then
    let (r, c) := c.service attempt name
    (r.mapError fun f => .failed f.message, c)
  else (.error (ToolService.unknownServer name), c)

def tools (c : Connections) (attempt : ToolServer → Except ConnectError Peer) (name : String) :
    Except NodeError (List Json) × Connections :=
  let (r, c) := c.serviceFor attempt name
  (r.bind fun peer => peer.tools name, c)

def call (c : Connections) (attempt : ToolServer → Except ConnectError Peer) (call : ToolCall) :
    Except NodeError Json × Connections :=
  let (r, c) := c.serviceFor attempt call.server
  (r.bind fun peer => peer.answer call.tool call.arguments, c)

end Connections

/-- Connects to a server for the test only and lists its tools. -/
def ToolServer.test (s : ToolServer) (attempt : ToolServer → Except ConnectError Peer) :
    Except NodeError (List Json) :=
  match attempt s with
  | .ok peer => peer.tools s.name
  | .error e => .error (.failed (e.toFailure s.name).message)

end Workflows
