/-
  Workflows.Tools.Service — tool servers as nodes and clients see them.

  Servers are known by name. Each lists its tools and answers calls; a server that is not
  configured may be tested by the command that starts it.
-/
import Workflows.Config.Basic
import Workflows.NodeType.Activity
namespace Workflows

structure ToolService where
  /-- The names of the servers, ascending. -/
  names : List String
  tools : String → Except NodeError (List Json)
  /-- After how many milliseconds a call is answered, and with what. -/
  call : ToolCall → Nat × Except NodeError Json
  /-- The tools of a server that is started for the test only. -/
  test : ToolServer → Except NodeError (List Json)

namespace ToolService

def unknownServer (name : String) : NodeError := .invalidInput s!"Unknown MCP server '{name}'"

/-- No servers at all. -/
def unconfigured : ToolService where
  names := []
  tools name := .error (unknownServer name)
  call c := (0, .error (unknownServer c.server))
  test _ := .error (.failed "spawn failed")

end ToolService
end Workflows
