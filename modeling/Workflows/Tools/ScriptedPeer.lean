/-
  Workflows.Tools.ScriptedPeer — tool servers that behave as a document says.

  In a script `quit` hangs up at once, `pages` are the pages of tools, `listError` is the
  refusal to list them, and `calls` holds what a tool answers: `result`, or the refusal
  `error`. Any other tool answers with the text of its name and arguments.
-/
import Workflows.Tools.Peer
namespace Workflows.Peer

def scriptedError (j : Json) : PeerError :=
  { code := ((j.member "code").integer?).getD 0, message := (j.member "message").textOf,
    data := j.member? "data" }

/-- What a tool answers that the script does not know. -/
def echo (tool : String) (arguments : Keyed Json) : Json :=
  let text := (Json.array [.string tool, .object arguments]).compact
  .object [("content", .array [.object [("text", .string text), ("type", .string "text")]])]

/-- The peer of a script, unless it hangs up. -/
def ofScript (script : Json) : Except ConnectError Peer :=
  if script.member "quit" = .bool true then .error .hungUp
  else .ok {
    pages := match script.member? "listError" with
      | some e => .error (scriptedError e)
      | none => .ok ((script.member "pages").itemsOf.map Json.itemsOf),
    call := fun tool arguments =>
      match (script.member "calls").member? tool with
      | none => .ok (echo tool arguments)
      | some answer =>
        match answer.member? "error" with
        | some e => .error (scriptedError e)
        | none => .ok (answer.member "result") }

end Workflows.Peer
