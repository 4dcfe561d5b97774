/-
  Workflows.Yaml.Cursor — a place in a YAML text.

  A cursor is the text from a place on, and where the place is. Lines are broken by CR LF, CR,
  LF, NEL, LS and PS. Gaps between words (blanks, or line breaks with blanks around them) are
  folded: blanks stay, a single line break becomes a blank, more of them lose the first.
-/
namespace Workflows.Yaml

structure Cursor where
  rest : List Char
  line : Nat := 0
  column : Nat := 0
  index : Nat := 0
deriving Inhabited

def isBreak (c : Char) : Bool :=
  c = '\n' || c = '\r' || c = '\u0085' || c = '\u2028' || c = '\u2029'

def isBlank (c : Char) : Bool := c = ' ' || c = '\t'

namespace Cursor

def peek? (c : Cursor) : Option Char := c.rest.head?

def peekAt? (c : Cursor) (n : Nat) : Option Char := (c.rest.drop n).head?

def isAt (c : Cursor) (x : Char) : Bool := c.peek? == some x

def atEnd (c : Cursor) : Bool := c.rest.isEmpty

def atBreak (c : Cursor) : Bool := c.peek?.any isBreak

def atBlank (c : Cursor) : Bool := c.peek?.any isBlank

/-- Whether the character some places on is a blank, a line break or missing. -/
def blankOrEndAt (c : Cursor) (n : Nat) : Bool :=
  match c.peekAt? n with
  | none => true
  | some x => isBlank x || isBreak x

/-- Passes over one character of the line. -/
def skip (c : Cursor) : Cursor :=
  { c with rest := c.rest.drop 1, column := c.column + 1, index := c.index + 1 }

def skipMany (c : Cursor) (n : Nat) : Cursor :=
  { c with rest := c.rest.drop n, column := c.column + n, index := c.index + n }

/-- Passes over a line break, if there is one; also the character it counts as. -/
def takeBreak (c : Cursor) : List Char × Cursor :=
  match c.rest with
  | '\r' :: '\n' :: rest => (['\n'], ⟨rest, c.line + 1, 0, c.index + 2⟩)
  | '\u2028' :: rest => (['\u2028'], ⟨rest, c.line + 1, 0, c.index + 1⟩)
  | '\u2029' :: rest => (['\u2029'], ⟨rest, c.line + 1, 0, c.index + 1⟩)
  | x :: rest => if isBreak x then (['\n'], ⟨rest, c.line + 1, 0, c.index + 1⟩) else ([], c)
  | [] => ([], c)

/-- Passes over characters of the line while they satisfy `p`. -/
def skipWhile (p : Char → Bool) (c : Cursor) : Cursor := c.skipMany (c.rest.takeWhile p).length

/-- The characters that satisfy `p`, and what follows them. -/
def takeWhile (p : Char → Bool) (c : Cursor) : List Char × Cursor :=
  (c.rest.takeWhile p, c.skipWhile p)

/-- Whether `---` or `...` stands at the start of a line, on its own. -/
def atDocumentMark (c : Cursor) : Bool :=
  c.column = 0 && (c.rest.take 3 = ['-', '-', '-'] || c.rest.take 3 = ['.', '.', '.'])
    && c.blankOrEndAt 3

/-- Passes over the rest of the line, up to its break. -/
def skipLine (c : Cursor) : Cursor := c.skipWhile fun x => !isBreak x

end Cursor

/-- What stands between two words: the blanks before the first line break, and the line breaks.
`broken` says that a line has ended, even if its break counts for nothing. -/
structure Gap where
  blanks : List Char := []
  breaks : List Char := []
  broken : Bool := false
  /-- The first break counts for nothing. -/
  escaped : Bool := false

/-- The text a gap stands for. -/
def Gap.fold (g : Gap) : List Char :=
  if !g.broken then g.blanks
  else if g.escaped then g.breaks
  else
    match g.breaks with
    | '\n' :: [] => [' ']
    | '\n' :: more => more
    | other => other

/-- Reads the blanks and breaks that come next into a gap. With `margin` given, a tab at the
start of a line left of the margin is refused. -/
def readGap (margin : Option Int) : (fuel : Nat) → Gap → Cursor → Option (Gap × Cursor)
  | 0, g, c => some (g, c)
  | fuel + 1, g, c =>
    match c.peek? with
    | none => some (g, c)
    | some x =>
      if isBlank x then
        if g.broken && x = '\t' && margin.any fun m => (c.column : Int) < m then none
        else
          readGap margin fuel (if g.broken then g else { g with blanks := g.blanks ++ [x] }) c.skip
      else if isBreak x then
        let (b, c) := c.takeBreak
        readGap margin fuel { g with breaks := g.breaks ++ b, broken := true } c
      else some (g, c)

end Workflows.Yaml
