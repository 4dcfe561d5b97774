/-
  Workflows.Files.Definitions — definitions in files.

  A file whose name ends in `.json` holds JSON, any other YAML. A definition without an id gets
  the name of its file without the extension. Of a folder the files named as YAML or JSON are
  read in order of their names, and those that cannot be read are left out.
-/
import Workflows.Failure
import Workflows.Files.Tree
import Workflows.Shape.Place
namespace Workflows

/-- Reads the definition of a text in the format of a file's extension. -/
def Definition.ofFileText (extension : Option String) (text : String) : Except Failure Definition :=
  if extension = some "json" then
    (Definition.ofText text).mapError fun cause =>
      Failure.misread cause (Definition.shape.place text cause)
  else match Definition.ofYaml text with
    | some d => .ok d
    | none => .error .yaml

namespace FileTree

/-- The definition in a file. -/
def definition (t : FileTree) (path : String) : Except Failure Definition := do
  let text ← (t.read path).mapError Failure.io
  let d ← Definition.ofFileText (fileExtension? path) text
  return if d.id.isNone then { d with id := some (fileStem path) } else d

def isDefinitionName (path : String) : Bool :=
  match fileExtension? path with
  | some e => ["yaml", "yml", "json"].contains e
  | none => false

/-- The definitions in a folder. -/
def definitions (t : FileTree) (folder : String) : Except Failure (List Definition) :=
  if t.isFolder folder then
    .ok ((t.children folder).filter isDefinitionName |>.filterMap fun path =>
      match t.definition path with
      | .ok d => some d
      | .error _ => none)
  else .error (.config s!"Workflows directory not found: {folder}")

end FileTree
end Workflows
