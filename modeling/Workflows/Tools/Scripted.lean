/-
  Workflows.Tools.Scripted — tool servers that answer as a document says.

  The member `servers` holds a script by name of server, `candidates` one by command. In a
  script `tools` is the list of tools, or `error` the failure of listing them, and `results`
  holds what a tool answers: `value`, or its arguments if it has `echo`, or the failure
  `error`, after `delay` milliseconds.
-/
import Workflows.Tools.Service
namespace Workflows.ToolService

/-- A failure as a script gives it, of kind `failed` unless it says otherwise. -/
def scriptedError (j : Json) : NodeError :=
  ⟨.ofText ((j.text? "kind").getD "failed"), (j.member "message").textOf⟩

def scriptedTools (script : Json) : Except NodeError (List Json) :=
  match script.member? "error" with
  | some e => .error (scriptedError e)
  | none => .ok (script.member "tools").itemsOf

def scriptedAnswer (call : ToolCall) (result : Json) : Except NodeError Json :=
  match result.member? "error", result.member? "echo" with
  | some e, _ => .error (scriptedError e)
  | none, some _ => .ok (.object call.arguments)
  | none, none => .ok (result.member "value")

/-- The service of a script. -/
def ofScript (script : Json) : ToolService :=
  let servers := (script.member "servers").membersOf
  { names := Keyed.keys servers,
    tools := fun name =>
      match Keyed.get? servers name with
      | some s => scriptedTools s
      | none => .error (unknownServer name),
    call := fun call =>
      match Keyed.get? servers call.server with
      | none => (0, .error (unknownServer call.server))
      | some s =>
        match (s.member "results").member? call.tool with
        | none => (0, .error (.failed s!"MCP tool '{call.tool}' failed: no such tool"))
        | some r => ((r.member "delay").natOf, scriptedAnswer call r),
    test := fun server =>
      match (script.member "candidates").member? server.command with
      | some s => scriptedTools s
      | none => .error (.failed "spawn failed") }

end Workflows.ToolService
