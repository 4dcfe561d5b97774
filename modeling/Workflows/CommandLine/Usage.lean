/-
  Workflows.CommandLine.Usage — what is printed on how to use the program.
-/
import Workflows.CommandLine.Arguments
namespace Workflows.CommandLine

def programName : String := "nodeflow"

def versionText : String := programName ++ " 0.1.0\n"

/-- How the value of an option is written. -/
def OptionRule.placeholder (r : OptionRule) : String :=
  "<" ++ String.ofList (r.name.toList.map Char.toUpper) ++ ">"

/-- How an option is written. -/
def OptionRule.usage (r : OptionRule) : String :=
  "-" ++ r.letter.toString ++ ", --" ++ r.name ++ " " ++ r.placeholder

/-- Two columns, the second in line. -/
def columns (rows : List (String × String)) : String :=
  let width := rows.foldl (fun w (left, _) => max w left.length) 0
  String.join (rows.map fun (left, right) =>
    let gap := if right = "" then "" else "".pushn ' ' (width + 2 - left.length)
    "  " ++ left ++ gap ++ right ++ "\n")

def helpRow : String × String := ("-h, --help", "Print help")

def versionRow : String × String := ("-V, --version", "Print version")

def optionRow (r : OptionRule) : String × String := (r.usage, r.about)

/-- The usage of the whole program. -/
def programUsage : String :=
  "Usage: " ++ programName ++ " [OPTIONS] <COMMAND>\n\nCommands:\n"
    ++ columns (CommandName.all.map (fun c => (c.text, c.about))
      ++ [("help", "Print this message or the help of the given subcommand(s)")])
    ++ "\nOptions:\n" ++ columns [optionRow configRule, helpRow, versionRow]

/-- The usage of one command. -/
def commandUsage (c : CommandName) : String :=
  let wanted := (c.ownRules.filter (·.isRequired)).map fun r => " --" ++ r.name ++ " " ++ r.placeholder
  c.about ++ "\n\nUsage: " ++ programName ++ " " ++ c.text ++ " [OPTIONS]" ++ String.join wanted
    ++ "\n\nOptions:\n" ++ columns (c.rules.map optionRow ++ [helpRow])

def usage : Option CommandName → String
  | none => programUsage
  | some c => commandUsage c

end Workflows.CommandLine
