/-
  Workflows.Json.Pretty — the text of a JSON value over several lines.

  Each item and each member has a line of its own, two spaces further in than the brackets
  around it; an empty list or object stays on its line.
-/
import Workflows.Json.Text
namespace Workflows.Json

/-- The end of a line and the spaces before what stands so many levels in. -/
def newLine (level : Nat) : List Char := '\n' :: List.replicate (2 * level) ' '

mutual
/-- The text of a value that stands so many levels in, before `rest`. -/
def prettyChars (level : Nat) : Json → (rest : List Char) → List Char
  | .array (x :: xs), rest =>
    '[' :: newLine (level + 1) ++ prettyChars (level + 1) x (prettyItems level xs rest)
  | .object ((k, x) :: ms), rest =>
    '{' :: newLine (level + 1) ++ quote k ++ ':' :: ' ' ::
      prettyChars (level + 1) x (prettyMembers level ms rest)
  | j, rest => writeChars j rest

/-- The items after the first and the closing bracket. -/
def prettyItems (level : Nat) : List Json → (rest : List Char) → List Char
  | [], rest => newLine level ++ ']' :: rest
  | x :: xs, rest =>
    ',' :: newLine (level + 1) ++ prettyChars (level + 1) x (prettyItems level xs rest)

/-- The members after the first and the closing brace. -/
def prettyMembers (level : Nat) : List (String × Json) → (rest : List Char) → List Char
  | [], rest => newLine level ++ '}' :: rest
  | (k, x) :: ms, rest =>
    ',' :: newLine (level + 1) ++ quote k ++ ':' :: ' ' ::
      prettyChars (level + 1) x (prettyMembers level ms rest)
end

def pretty (j : Json) : String := String.ofList (prettyChars 0 j [])

end Workflows.Json
