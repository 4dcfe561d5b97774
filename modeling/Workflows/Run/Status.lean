/-
  Workflows.Run.Status — the states of a run and of a node in it.

  A run goes from `new` to `running` to one of three terminal states and never back; a
  terminal state absorbs every transition.
-/
import Workflows.Json.Basic
namespace Workflows

inductive RunStatus where
  | new | running | success | error | canceled
deriving DecidableEq, Repr, Inhabited

namespace RunStatus

def isTerminal : RunStatus → Bool
  | .success | .error | .canceled => true
  | .new | .running => false

/-- Transitions only move forward. -/
def canBecome : RunStatus → RunStatus → Bool
  | .new, .new => false
  | .new, _ => true
  | .running, next => next.isTerminal
  | _, _ => false

def text : RunStatus → String
  | .new => "new"
  | .running => "running"
  | .success => "success"
  | .error => "error"
  | .canceled => "canceled"

def names : List String := ["new", "running", "success", "error", "canceled"]

def ofText? : String → Option RunStatus
  | "new" => some .new
  | "running" => some .running
  | "success" => some .success
  | "error" => some .error
  | "canceled" => some .canceled
  | _ => none

/-- The complaint about a text that names no state. -/
def unknownText (s : String) : String := s!"Unknown execution status '{s}'"

end RunStatus

inductive NodeStatus where
  | waiting | running | success | error
  /-- Some node before it did not succeed. -/
  | skipped
deriving DecidableEq, Repr, Inhabited

namespace NodeStatus

def isTerminal : NodeStatus → Bool
  | .success | .error | .skipped => true
  | .waiting | .running => false

def text : NodeStatus → String
  | .waiting => "waiting"
  | .running => "running"
  | .success => "success"
  | .error => "error"
  | .skipped => "skipped"

def names : List String := ["waiting", "running", "success", "error", "skipped"]

def ofText? : String → Option NodeStatus
  | "waiting" => some .waiting
  | "running" => some .running
  | "success" => some .success
  | "error" => some .error
  | "skipped" => some .skipped
  | _ => none

def unknownText (s : String) : String := s!"Unknown node status '{s}'"

end NodeStatus
end Workflows
