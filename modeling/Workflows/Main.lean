/-
  Workflows.Main — the program.

  It gathers what a command line may need (variables, the files that are named and the folder
  of workflows), carries the line out and prints what that comes to. A run takes as long as
  its nodes do.
-/
import Workflows.CommandLine.Execute
namespace Workflows.CommandLine

/-- Adds what is at a path: the text of a file, or a folder with the files in it. -/
def addPath (files : FileTree) (path : String) : IO FileTree := do
  try
    let text ← IO.FS.readFile path
    return files.add path text
  catch _ =>
    try
      let entries ← (System.mkFilePath [path]).readDir
      let mut files := files.add (path ++ "/") ""
      for entry in entries do
        try
          files := files.add (path ++ "/" ++ entry.fileName) (← IO.FS.readFile entry.path)
        catch _ => pure ()
      return files
    catch _ => return files

/-- The file of variables, from this folder or the nearest above that has one. -/
def addVariablesFile (files : FileTree) : IO FileTree := do
  for n in List.range 64 do
    let path := String.join (List.replicate n "../") ++ variablesFile
    try
      return files.add variablesFile (← IO.FS.readFile path)
    catch _ => pure ()
  return files

/-- The paths a command line names. -/
def namedPaths (a : Arguments) : List String :=
  let file := match a.command with
    | .run file _ | .validate file | .plan file => [file]
    | .serve _ | .nodeTypes => []
  a.config.toList ++ file

/-- The words of a text that can be names of variables. -/
def wordsOf (text : String) : List String :=
  (text.toList.splitBy fun a b => isWordChar a == isWordChar b).map String.ofList

/-- The values of the variables that a command line may look at. -/
def gatherVariables (files : FileTree) : IO (Keyed String) := do
  let inFile := match files.read variablesFile with
    | .ok text =>
      wordsOf text ++ (text.splitOn "\n").filterMap fun line =>
        (readHead (Text.trimStart line.toList)).map (·.1)
    | .error _ => []
  let mut values : Keyed String := []
  for name in Config.overrides.map (·.1) ++ inFile do
    if let some value ← IO.getEnv name then values := Keyed.insert values name value
  return values

/-- The number after a word at the beginning of a line. -/
def numberAfter (word text : String) : Option Nat :=
  (text.splitOn "\n").findSome? fun line =>
    match line.splitOn " " with
    | w :: number :: _ => if w = word then (number.splitOn ".").head?.bind String.toNat? else none
    | _ => none

/-- The time by the clock of the machine. -/
def readWallClock : IO Instant := do
  try
    let started := (numberAfter "btime" (← IO.FS.readFile "/proc/stat")).getD 0
    let uptime := (← IO.FS.readFile "/proc/uptime").splitOn "."
    let seconds := (uptime.head?.bind String.toNat?).getD 0
    return Instant.epoch.addSeconds (started + seconds)
  catch _ => return .epoch

/-- An id made of sixteen random bytes, in groups of hexadecimal digits. -/
def randomId : IO String := do
  let bytes ← IO.getRandomBytes 16
  let digits := bytes.toList.zipIdx.flatMap fun (b, i) =>
    let n := b.toNat
    let n := if i = 6 then 64 + n % 16 else if i = 8 then 128 + n % 64 else n
    [Json.hexDigit (n / 16), Json.hexDigit (n % 16)]
  let group (start count : Nat) : String := String.ofList ((digits.drop start).take count)
  return "-".intercalate [group 0 8, group 8 4, group 12 4, group 16 4, group 20 12]

/-- Gathers what a command line may need. -/
def gather (words : List String) : IO Site := do
  let files ← addVariablesFile {}
  let mut files ← addPath files defaultConfigFile
  let environment ← gatherVariables files
  let arguments := (Arguments.read words).toOption
  for path in (arguments.map namedPaths).getD [] do
    files ← addPath files path
  let id ← randomId
  let s : Site :=
    { files, environment := Keyed.get? environment, clock := ← readWallClock,
      ids := { run := fun n => if n = 0 then id else s!"{id}-{n}" } }
  match loadConfig s (arguments.bind (·.config)) with
  | .ok config =>
    match config.workflowsDir with
    | some folder => return { s with files := ← addPath files folder }
    | none => return s
  | .error _ => return s

end Workflows.CommandLine

open Workflows.CommandLine in
/-- Carries out the command line. -/
def main (words : List String) : IO UInt32 := do
  let outcome := execute (← gather words) words
  if 0 < outcome.elapsed then IO.sleep outcome.elapsed.toUInt32
  IO.print outcome.printed
  if let some message := outcome.failure then IO.eprintln s!"Error: {message}"
  if outcome.exit = 2 then IO.eprint (usage none)
  return outcome.exit.toUInt32
