/-
  Workflows.CommandLine.Variables — variables from a file beside those of the surroundings.

  Each line gives a variable: a name, perhaps after `export`, an equals sign and a value; a line
  that is empty or begins with `#` gives none. A value goes to the first blank that is neither
  quoted nor escaped; after that only a comment may follow. Between single quotes every
  character stands for itself. Elsewhere a backslash escapes a few characters, and `$name` or
  a name in braces after `$` stands for the value of a variable. A line that cannot be read
  ends the file. A variable of the surroundings is never changed.
-/
import Workflows.Data.Keyed
import Workflows.Text.Blank
namespace Workflows.CommandLine

/-- Finds the value of a variable. -/
abbrev Lookup := String → Option String

/-! ## Values -/

/-- How far the reading of a value has come. -/
inductive ValueState where
  | plain
  | doubleQuoted
  | singleQuoted
  /-- After a backslash. -/
  | escaped (quoted : Bool)
  /-- In the name after a dollar sign, last character first. -/
  | name (quoted : Bool) (done : List Char)
  /-- In a name in braces. -/
  | braced (quoted : Bool) (done : List Char)
  /-- After the value. -/
  | after

/-- A letter or a digit; beyond ASCII every character counts as one. -/
def isWordChar (c : Char) : Bool := c.isAlphanum || 128 ≤ c.toNat

/-- The value of a variable whose name has been read. -/
def expand (lookup : Lookup) (done : List Char) : List Char :=
  ((lookup (String.ofList done.reverse)).getD "").toList

def escape? (c : Char) : Option Char :=
  if ['\\', '\'', '"', '$', ' '].contains c then some c
  else if c = 'n' then some '\n'
  else none

def unquote (quoted : Bool) : ValueState := if quoted then .doubleQuoted else .plain

/-- Reads a value; `out` is what it has come to, last character first. -/
def readValue (lookup : Lookup) : ValueState → (out : List Char) → List Char → Option String
  | .plain, out, [] | .after, out, [] | .escaped false, out, [] =>
    some (String.ofList out.reverse)
  | .name false done, out, [] => some (String.ofList (out.reverse ++ expand lookup done))
  | _, _, [] => none
  | .after, out, c :: cs =>
    if c = ' ' ∨ c = '\t' then readValue lookup .after out cs
    else if c = '#' then some (String.ofList out.reverse)
    else none
  | .escaped quoted, out, c :: cs =>
    match escape? c with
    | some x => readValue lookup (unquote quoted) (x :: out) cs
    | none => none
  | .singleQuoted, out, c :: cs =>
    if c = '\'' then readValue lookup .plain out cs else readValue lookup .singleQuoted (c :: out) cs
  | .name quoted done, out, c :: cs =>
    if isWordChar c then readValue lookup (.name quoted (c :: done)) out cs
    else if c = '{' ∧ done = [] then readValue lookup (.braced quoted []) out cs
    else
      let out := (expand lookup done).reverse ++ out
      if c = '$' then readValue lookup (.name quoted []) out cs
      else readValue lookup (unquote quoted) (c :: out) cs
  | .braced quoted done, out, c :: cs =>
    if c = '}' then readValue lookup (unquote quoted) ((expand lookup done).reverse ++ out) cs
    else readValue lookup (.braced quoted (c :: done)) out cs
  | .doubleQuoted, out, c :: cs =>
    if c = '$' then readValue lookup (.name true []) out cs
    else if c = '"' then readValue lookup .plain out cs
    else if c = '\\' then readValue lookup (.escaped true) out cs
    else readValue lookup .doubleQuoted (c :: out) cs
  | .plain, out, c :: cs =>
    if c = '$' then readValue lookup (.name false []) out cs
    else if c = '\'' then readValue lookup .singleQuoted out cs
    else if c = '"' then readValue lookup .doubleQuoted out cs
    else if c = '\\' then readValue lookup (.escaped false) out cs
    else if c = ' ' ∨ c = '\t' then readValue lookup .after out cs
    else readValue lookup .plain (c :: out) cs

/-! ## Lines -/

/-- A name, and what follows it and the blanks after it. -/
def readName (cs : List Char) : Option (String × List Char) :=
  let isNameChar (c : Char) : Bool := c.isAlphanum || c = '_' || c = '.'
  match cs with
  | c :: _ =>
    if c.isAlpha || c = '_' then
      some (String.ofList (cs.takeWhile isNameChar), Text.trimStart (cs.dropWhile isNameChar))
    else none
  | [] => none

/-- What follows an equals sign and the blanks after it. -/
def readEquals : List Char → Option (List Char)
  | '=' :: cs => some (Text.trimStart cs)
  | _ => none

/-- The name a line begins with, and the text of its value. -/
def readHead (cs : List Char) : Option (String × List Char) := do
  let (name, rest) ← readName cs
  match readEquals rest with
  | some value => return (name, value)
  | none =>
    guard (name = "export")
    let (name, rest) ← readName rest
    return (name, ← readEquals rest)

/-- What a line may hold. -/
inductive Line where
  | nothing
  | variable (name value : String)
  | unreadable

def isComment : List Char → Bool
  | [] => true
  | c :: _ => c = '#'

def readLine (lookup : Lookup) (line : String) : Line :=
  let cs := Text.trimStart (Text.trimEnd line.toList)
  if isComment cs then .nothing
  else match readHead cs with
  | none => .unreadable
  | some (name, value) =>
    if isComment value then .variable name ""
    else match readValue lookup .plain [] value with
    | some value => .variable name value
    | none => .unreadable

/-! ## Files -/

/-- Looks among the surroundings first and among variables read before then. -/
def lookupIn (surroundings : Lookup) (read : Keyed String) : Lookup := fun name =>
  (surroundings name).or (Keyed.get? read name)

/-- Reads lines up to the first that cannot be read. Of a variable that comes again the first
value stays in force. -/
def readLines (surroundings : Lookup) : (read : Keyed String) → List String → Keyed String
  | read, [] => read
  | read, line :: rest =>
    match readLine (lookupIn surroundings read) line with
    | .nothing => readLines surroundings read rest
    | .variable name value =>
      let read := if Keyed.contains read name then read else Keyed.insert read name value
      readLines surroundings read rest
    | .unreadable => read

/-- The variables of the surroundings and those of a file. -/
def lookupWith (surroundings : Lookup) (file : String) : Lookup :=
  lookupIn surroundings (readLines surroundings [] (file.splitOn "\n"))

end Workflows.CommandLine
