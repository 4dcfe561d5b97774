/-
  Workflows.Files.Tree — files and folders, as a value.

  A path is a way through folders, from the folder one stands in or, if it begins with a slash,
  from the root. It is walked name by name: an empty name and a single dot stay where they are,
  a double dot goes back, and every step needs a folder to start from. A tree knows some files
  and folders; there is nothing else.
-/
import Workflows.Data.Keyed
namespace Workflows

/-- Why a file cannot be read, or a command not be started. -/
inductive FileError where
  | notFound | isFolder
  /-- The way leads through a file. -/
  | notFolder
  /-- Whatever else the system reports. -/
  | other (message : String)
deriving DecidableEq, Repr

def FileError.message : FileError → String
  | .notFound => "No such file or directory (os error 2)"
  | .isFolder => "Is a directory (os error 21)"
  | .notFolder => "Not a directory (os error 20)"
  | .other message => message

/-! ## Paths -/

/-- The names of a path that are not mere dots, an empty one in front of those from the root. -/
def pathNames (path : String) : List String :=
  let names := (path.splitOn "/").filter fun name => name ≠ "" && name ≠ "."
  if path.startsWith "/" then "" :: names else names

/-- The path of some names. -/
def joinNames (names : List String) : String :=
  if names = [""] then "/" else "/".intercalate names

/-- The last name of a path. -/
def fileName (path : String) : String := (pathNames path).getLast?.getD ""

/-- What stands before and after the last dot of a name; a name with no dot, or with one in
front only, has no extension. -/
def splitName (name : String) : String × Option String :=
  let cs := name.toList
  let after := (cs.reverse.takeWhile (· ≠ '.')).reverse
  let before := cs.take (cs.length - after.length - 1)
  if before.isEmpty ∨ after.length = cs.length then (name, none)
  else (String.ofList before, some (String.ofList after))

def fileStem (path : String) : String := (splitName (fileName path)).1

def fileExtension? (path : String) : Option String := (splitName (fileName path)).2

/-! ## Trees -/

/-- Files by path, and the paths of all folders but the two that paths start from. -/
structure FileTree where
  files : Keyed String := []
  folders : NameSet := []

namespace FileTree

/-- The folders a path leads through. -/
def parents (names : List String) : List String :=
  (List.range (names.length - 1)).map fun n => joinNames (names.take (n + 1))

/-- Adds a file, or a folder if the path ends in a slash. -/
def add (t : FileTree) (path text : String) : FileTree :=
  let names := pathNames path
  let folders := t.folders.union (parents names)
  if path.endsWith "/" then { t with folders := folders.insert (joinNames names) }
  else { files := Keyed.insert t.files (joinNames names) text, folders }

def ofFiles (files : List (String × String)) : FileTree :=
  files.foldl (fun t (path, text) => t.add path text) {}

def hasFolder (t : FileTree) (names : List String) : Bool :=
  names = [] || names = [""] || t.folders.contains (joinNames names)

def file? (t : FileTree) (names : List String) : Option String :=
  Keyed.get? t.files (joinNames names)

/-- Walks on from `here`, the names so far with the last one first. -/
def walk (t : FileTree) : List String → (here : List String) → Except FileError (List String)
  | [], here => .ok here.reverse
  | name :: rest, here =>
    if !t.hasFolder here.reverse then
      .error (if (t.file? here.reverse).isSome then .notFolder else .notFound)
    else if name = "" ∨ name = "." then t.walk rest here
    else if name = ".." then
      match here with
      | [] => .error .notFound
      | [""] => t.walk rest here
      | _ :: above => t.walk rest above
    else t.walk rest (name :: here)

/-- The names of the place a path leads to; whether anything is there is another question. -/
def locate (t : FileTree) (path : String) : Except FileError (List String) :=
  if path = "" then .error .notFound
  else t.walk (path.splitOn "/") (if path.startsWith "/" then [""] else [])

def isFolder (t : FileTree) (path : String) : Bool :=
  match t.locate path with
  | .ok names => t.hasFolder names
  | .error _ => false

def isFile (t : FileTree) (path : String) : Bool :=
  match t.locate path with
  | .ok names => (t.file? names).isSome
  | .error _ => false

def read (t : FileTree) (path : String) : Except FileError String := do
  let names ← t.locate path
  match t.file? names with
  | some text => .ok text
  | none => .error (if t.hasFolder names then .isFolder else .notFound)

/-- The paths directly in a folder, ascending by name. -/
def children (t : FileTree) (folder : String) : List String :=
  match t.locate folder with
  | .error _ => []
  | .ok above =>
    let names := (Keyed.keys t.files ++ t.folders).filterMap fun path =>
      let names := pathNames path
      if names.length = above.length + 1 ∧ names.take above.length = above then names.getLast?
      else none
    (NameSet.ofList names).map fun name => joinNames (above ++ [name])

end FileTree
end Workflows
