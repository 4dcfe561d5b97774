/-
  Workflows.Catalog.Basic — the definitions that are at hand, by id.

  An entry is never changed in place: an update stores the next version, and a run keeps the
  definition it started with. The catalog owns ids, versions and the times of creation and
  change, whatever a submitted definition says of them.
-/
import Workflows.Definition.Codec
import Workflows.Failure
namespace Workflows

/-- Definitions by id. -/
structure Catalog where
  entries : Keyed Definition := []

namespace Catalog

/-- The id given to the `n`-th workflow that comes without one. -/
def generatedId (n : Nat) : String :=
  let digits := Nat.toDigits 16 n
  "workflow_" ++ String.ofList (List.replicate (32 - digits.length) '0' ++ digits)

/-- The id a definition asks for, unless it is blank. -/
def requestedId? (d : Definition) : Option String := d.id.filter fun id => !Text.isBlank id

def get (c : Catalog) (id : String) : Except Failure Definition :=
  match Keyed.get? c.entries id with
  | some d => .ok d
  | none => .error (.workflowNotFound id)

/-- Whether one entry is listed no later than another: by name, then id. -/
def listedBefore (a b : Definition) : Bool :=
  if a.name = b.name then decide (a.key ≤ b.key) else decide (a.name < b.name)

/-- All entries, by name, then id. -/
def list (c : Catalog) : List Definition := (Keyed.values c.entries).mergeSort listedBefore

/-- Stores a new definition under the id it asks for, else under `fresh`. -/
def create (c : Catalog) (fresh : String) (now : Instant) (d : Definition) :
    Except Failure (Catalog × Definition) :=
  let id := (requestedId? d).getD fresh
  if Keyed.contains c.entries id then .error (.duplicate s!"Workflow '{id}'")
  else
    let d := { d with id := some id, version := 1, createdAt := some now, updatedAt := some now }
    .ok (⟨Keyed.insert c.entries id d⟩, d)

/-- Stores a definition as the next version of an entry. A version of 32 bits runs out after
2 ^ 32 changes. -/
def update (c : Catalog) (id : String) (now : Instant) (d : Definition) :
    Except Failure (Catalog × Definition) := do
  let current ← c.get id
  let d := { d with id := some id, version := current.version + 1,
                    createdAt := current.createdAt, updatedAt := some now }
  return (⟨Keyed.insert c.entries id d⟩, d)

def delete (c : Catalog) (id : String) : Except Failure Catalog := do
  let _ ← c.get id
  return ⟨Keyed.erase c.entries id⟩

/-- Creates an entry from any document. -/
def importDocument (c : Catalog) (fresh : String) (now : Instant) (document : Json) :
    Except Failure (Catalog × Definition) :=
  match Definition.ofJson document with
  | .ok d => c.create fresh now d
  | .error m => .error (.document (.mismatch m))

def exportDocument (c : Catalog) (id : String) : Except Failure Json := (c.get id).map Definition.toJson

end Catalog
end Workflows
