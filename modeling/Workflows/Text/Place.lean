/-
  Workflows.Text.Place — places in a text, by line and column.
-/
namespace Workflows.Text

/-- The number of bytes of a text. -/
def utf8Length (cs : List Char) : Nat := cs.foldl (fun n c => n + c.utf8Size) 0

/-- A place: lines count from one, and a column is the number of bytes of the line before it. -/
structure Place where
  line : Nat
  column : Nat
deriving DecidableEq, Repr

/-- The place after some characters. -/
def Place.after (cs : List Char) : Place :=
  { line := cs.count '\n' + 1,
    column := utf8Length (cs.reverse.takeWhile (· ≠ '\n')) }

end Workflows.Text
