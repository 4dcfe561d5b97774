/-
  Workflows.CommandLine.Arguments — what the words of a command line ask for.

  A line is some options, the name of a command and the options of that command; the option
  for the configuration may stand on either side, and the one after the name wins. The value
  of an option is the rest of its word (`--file=w.yaml`, `-fw.yaml`, `-f=w.yaml`) or the next
  word, which then may not look like an option. The words are read from the left: asking for
  help or for the version ends the reading, and so does the first misuse. After `--` no word
  can be an option, and no command takes other words.
-/
import Workflows.Config.Override
namespace Workflows.CommandLine

/-! ## Rules -/

inductive ValueKind where
  | text
  /-- A text that is not empty. -/
  | path
  /-- A number that can be a port. -/
  | port
deriving DecidableEq, Repr

/-- An option: it always has a value and may be given once. -/
structure OptionRule where
  letter : Char
  name : String
  kind : ValueKind
  isRequired : Bool := false
  about : String := ""

inductive CommandName where
  | serve | run | validate | plan | nodeTypes
deriving DecidableEq, Repr

def configRule : OptionRule :=
  { letter := 'c', name := "config", kind := .path,
    about := "Path to the engine configuration file" }

def fileRule (about : String) : OptionRule :=
  { letter := 'f', name := "file", kind := .path, isRequired := true, about }

namespace CommandName

def all : List CommandName := [.serve, .run, .validate, .plan, .nodeTypes]

def text : CommandName → String
  | .serve => "serve"
  | .run => "run"
  | .validate => "validate"
  | .plan => "plan"
  | .nodeTypes => "node-types"

def ofText? (s : String) : Option CommandName := all.find? (·.text == s)

def about : CommandName → String
  | .serve => "Serve the HTTP API"
  | .run => "Run a workflow file to completion and print the execution"
  | .validate => "Validate a workflow file"
  | .plan => "Print the execution order of a workflow file"
  | .nodeTypes => "List the available node types"

/-- The options of a command besides the configuration. -/
def ownRules : CommandName → List OptionRule
  | .serve =>
    [{ letter := 'p', name := "port", kind := .port,
       about := "Port to listen on, overrides the configuration" }]
  | .run =>
    [fileRule "Path to the workflow file",
      { letter := 'i', name := "input", kind := .text, about := "Trigger data as JSON" }]
  | .validate | .plan => [fileRule ""]
  | .nodeTypes => []

def rules (c : CommandName) : List OptionRule := configRule :: c.ownRules

end CommandName

/-! ## Words -/

/-- How a word reads. -/
inductive Word where
  /-- Two dashes. -/
  | separator
  | long (name : String) (value : Option String)
  | short (letter : Char) (rest : List Char)
  | plain (text : String)
deriving DecidableEq

def Word.ofText (s : String) : Word :=
  match s.toList with
  | ['-', '-'] => .separator
  | '-' :: '-' :: cs =>
    let name := String.ofList (cs.takeWhile (· ≠ '='))
    match cs.dropWhile (· ≠ '=') with
    | [] => .long name none
    | _ :: value => .long name (some (String.ofList value))
  | '-' :: c :: cs => .short c cs
  | _ => .plain s

/-- The value in the word of a letter, an equals sign in front being left out. -/
def attached? : List Char → Option String
  | [] => none
  | '=' :: value => some (String.ofList value)
  | value => some (String.ofList value)

/-! ## Values -/

/-- A decimal number, possibly signed. -/
def readSigned? (s : String) : Option Int :=
  let (sign, digits) : Int × List Char := match s.toList with
    | '-' :: cs => (-1, cs)
    | '+' :: cs => (1, cs)
    | cs => (1, cs)
  if digits.isEmpty || !digits.all Instant.isDigit then none
  else some (sign * Instant.digitsNat digits)

def readPort? (s : String) : Option Nat :=
  match readSigned? s with
  | some n => if 0 ≤ n ∧ n < 65536 then some n.toNat else none
  | none => none

def ValueKind.accepts (kind : ValueKind) (value : String) : Bool :=
  match kind with
  | .text => true
  | .path => value ≠ ""
  | .port => (readPort? value).isSome

/-! ## Reading -/

/-- Why reading ends before there is a command to carry out. -/
inductive Stop where
  | misuse
  /-- Help is asked for, on everything or on one command. -/
  | help (topic : Option CommandName)
  | version
deriving DecidableEq, Repr

/-- The values given so far, by the names of the options. -/
abbrev Values := Keyed String

def take (rule : OptionRule) (value : String) (values : Values) : Except Stop Values :=
  if Keyed.contains values rule.name || !rule.kind.accepts value then .error .misuse
  else .ok (Keyed.insert values rule.name value)

/-- The part of a line before or after the name of the command. -/
structure Part where
  rules : List OptionRule
  /-- The command whose part it is; none before the name. -/
  command : Option CommandName

/-- What a word that reads as an option asks for. -/
inductive Asked where
  | option (rule : OptionRule) (value : Option String)
  | stop (s : Stop)

namespace Part

def stopNamed? (p : Part) (isHelp isVersion : Bool) : Option Stop :=
  if isHelp then some (.help p.command)
  else if isVersion && p.command.isNone then some .version
  else none

def askedLong (p : Part) (name : String) (value : Option String) : Asked :=
  match p.rules.find? (·.name == name), p.stopNamed? (name == "help") (name == "version") with
  | some rule, _ => .option rule value
  | none, some s => .stop (if value.isSome then .misuse else s)
  | none, none => .stop .misuse

def askedShort (p : Part) (letter : Char) (rest : List Char) : Asked :=
  match p.rules.find? (·.letter == letter), p.stopNamed? (letter == 'h') (letter == 'V') with
  | some rule, _ => .option rule (attached? rest)
  | none, some s => .stop s
  | none, none => .stop .misuse

/-- What a word asks for, unless it stands for itself. -/
def asked? (p : Part) (w : Word) : Option Asked :=
  match w with
  | .long name value => some (p.askedLong name value)
  | .short letter rest => some (p.askedShort letter rest)
  | .separator | .plain _ => none

/-- Reads the options of a part; the words from the first that stands for itself are left. -/
def read (p : Part) : Values → List String → Except Stop (Values × List String)
  | values, [] => .ok (values, [])
  | values, word :: rest =>
    match p.asked? (.ofText word) with
    | none => .ok (values, word :: rest)
    | some (.stop s) => .error s
    | some (.option rule (some value)) =>
      match take rule value values with
      | .ok values => p.read values rest
      | .error s => .error s
    | some (.option rule none) =>
      match rest with
      | [] => .error .misuse
      | value :: rest =>
        match Word.ofText value with
        | .plain value =>
          match take rule value values with
          | .ok values => p.read values rest
          | .error s => .error s
        | _ => .error .misuse

end Part

/-! ## Commands -/

inductive Command where
  | serve (port : Option Nat)
  | run (file : String) (input : Option String)
  | validate (file : String)
  | plan (file : String)
  | nodeTypes
deriving DecidableEq

/-- What a line asks for. -/
structure Arguments where
  /-- The configuration that is named. -/
  config : Option String
  command : Command
deriving DecidableEq

/-- A command with the values of its options, if none is wanting. -/
def Command.ofValues (name : CommandName) (values : Values) : Except Stop Command :=
  let value (option : String) : Option String := Keyed.get? values option
  match name, value "file" with
  | .serve, _ => .ok (.serve ((value "port").bind readPort?))
  | .run, some file => .ok (.run file (value "input"))
  | .validate, some file => .ok (.validate file)
  | .plan, some file => .ok (.plan file)
  | .nodeTypes, _ => .ok .nodeTypes
  | _, none => .error .misuse

/-- Help on what the words name: everything, a command, or help itself. -/
def readHelp : List String → Stop
  | [] | ["help"] => .help none
  | [name] =>
    match CommandName.ofText? name with
    | some c => .help (some c)
    | none => .misuse
  | _ => .misuse

/-- Reads the words after the name of a command. -/
def readCommand (name : CommandName) (before : Values) (words : List String) :
    Except Stop Arguments := do
  let (values, rest) ← Part.read ⟨name.rules, some name⟩ [] words
  if rest = [] ∨ rest = ["--"] then
    let command ← Command.ofValues name values
    return { config := (Keyed.get? values "config").or (Keyed.get? before "config"), command }
  else throw .misuse

def Arguments.read (words : List String) : Except Stop Arguments := do
  match ← Part.read ⟨[configRule], none⟩ [] words with
  | (_, []) => throw .misuse
  | (before, name :: rest) =>
    if name = "help" then throw (readHelp rest)
    else match CommandName.ofText? name with
      | some c => readCommand c before rest
      | none => throw .misuse

end Workflows.CommandLine
