/-
  Workflows.Config.Override — variables of the surroundings laid over a configuration, and the
  check of the outcome.

  The variables are looked at in a fixed order. One whose text is no number of its kind stops
  the overriding; those before it stay in force.
-/
import Workflows.Config.Basic
import Workflows.Text.Blank
namespace Workflows.Config

/-! ## Overriding -/

/-- A decimal number from 0 to `bound`, possibly signed `+`, blanks around it allowed. -/
def readNatural? (bound : Nat) (s : String) : Option Nat :=
  let cs := (Text.trim s).toList
  let digits := match cs with
    | '+' :: rest => rest
    | _ => cs
  if digits.isEmpty || !digits.all Instant.isDigit then none
  else
    let n := Instant.digitsNat digits
    if n ≤ bound then some n else none

/-- What a variable changes: a text taken as it stands, or a number up to a bound. -/
inductive Setting where
  | text (put : String → Config → Config)
  | natural (bound : Nat) (put : Nat → Config → Config)

/-- The variables that are looked at, in order. -/
def overrides : List (String × Setting) := [
  ("NODEFLOW_MAX_CONCURRENCY", .natural (pow2 64 - 1) fun n c => { c with maxConcurrency := n }),
  ("NODEFLOW_NODE_TIMEOUT_SECS", .natural (pow2 64 - 1) fun n c => { c with nodeTimeout := n }),
  ("NODEFLOW_RUN_TIMEOUT_SECS", .natural (pow2 64 - 1) fun n c => { c with runTimeout := some n }),
  ("NODEFLOW_DATABASE", .text fun s c => { c with database := some s }),
  ("NODEFLOW_WORKFLOWS_DIR", .text fun s c => { c with workflowsDir := some s }),
  ("NODEFLOW_HOST", .text fun s c => { c with host := s }),
  ("NODEFLOW_PORT", .natural (pow2 16 - 1) fun n c => { c with port := n })]

/-- Lays one variable over a configuration. -/
def Setting.apply (s : Setting) (name value : String) (c : Config) : Except Failure Config :=
  match s with
  | .text put => .ok (put value c)
  | .natural bound put =>
    match readNatural? bound value with
    | some n => .ok (put n c)
    | none => .error (.config s!"Invalid value for {name}: '{value}'")

/-- Lays the variables over a configuration one after the other, as far as they can be read;
the failure says which could not. -/
def overrideWith (lookup : String → Option String) :
    List (String × Setting) → Config → Config × Option Failure
  | [], c => (c, none)
  | (name, setting) :: rest, c =>
    match lookup name with
    | none => overrideWith lookup rest c
    | some value =>
      match setting.apply name value c with
      | .ok c => overrideWith lookup rest c
      | .error f => (c, some f)

def override (lookup : String → Option String) (c : Config) : Config × Option Failure :=
  overrideWith lookup overrides c

/-! ## Checking -/

/-- The first name that comes a second time. -/
def repeated? : (seen : List String) → List String → Option String
  | _, [] => none
  | seen, n :: rest => if seen.contains n then some n else repeated? (n :: seen) rest

/-- The first fault of a configuration. -/
def check (c : Config) : Except Failure Unit :=
  if c.maxConcurrency = 0 then .error (.config "max_concurrency must be at least 1")
  else if c.nodeTimeout = 0 then .error (.config "node_timeout_secs must be at least 1")
  else match c.nodeTimeouts.find? (·.2 = 0) with
  | some (type, _) => .error (.config s!"node_timeouts.{type} must be at least 1")
  | none =>
    if c.runTimeout = some 0 then .error (.config "run_timeout_secs must be at least 1")
    else match repeated? [] (c.toolServers.map (·.name)) with
    | some name => .error (.config s!"MCP server '{name}' is configured twice")
    | none => .ok ()

/-- A configuration with the variables laid over it, checked. -/
def settle (lookup : String → Option String) (c : Config) : Except Failure Config :=
  match c.override lookup with
  | (_, some f) => .error f
  | (c, none) => c.check.map fun _ => c

end Workflows.Config
