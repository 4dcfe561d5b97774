/-
  Workflows.Yaml.Scalar — reading the scalars of a YAML text.

  Each reader starts at the first character of its scalar and gives the text it stands for and
  the place after it, or nothing when the scalar is malformed.
-/
import Workflows.Yaml.Cursor
namespace Workflows.Yaml

/-! ## Quoted scalars -/

def hexValue? (c : Char) : Option Nat :=
  if '0' ≤ c ∧ c ≤ '9' then some (c.toNat - 48)
  else if 'a' ≤ c ∧ c ≤ 'f' then some (c.toNat - 87)
  else if 'A' ≤ c ∧ c ≤ 'F' then some (c.toNat - 55)
  else none

/-- The value of hexadecimal digits. -/
def hexNat? (cs : List Char) : Option Nat :=
  cs.foldlM (fun n c => (hexValue? c).map (n * 16 + ·)) 0

/-- What a letter means after a backslash: a character, or a number of digits that follow. -/
def escape? (c : Char) : Option (Char ⊕ Nat) :=
  match c with
  | '0' => some (.inl (Char.ofNat 0))
  | 'a' => some (.inl (Char.ofNat 7))
  | 'b' => some (.inl (Char.ofNat 8))
  | 't' | '\t' => some (.inl '\t')
  | 'n' => some (.inl '\n')
  | 'v' => some (.inl (Char.ofNat 11))
  | 'f' => some (.inl (Char.ofNat 12))
  | 'r' => some (.inl '\r')
  | 'e' => some (.inl (Char.ofNat 27))
  | ' ' | '"' | '/' | '\\' => some (.inl c)
  | 'N' => some (.inl '\u0085')
  | '_' => some (.inl '\u00a0')
  | 'L' => some (.inl '\u2028')
  | 'P' => some (.inl '\u2029')
  | 'x' => some (.inr 2)
  | 'u' => some (.inr 4)
  | 'U' => some (.inr 8)
  | _ => none

/-- The character of an escape and the place after it; `c` stands after the backslash. -/
def readEscape? (c : Cursor) : Option (Char × Cursor) := do
  match ← escape? (← c.peek?) with
  | .inl x => return (x, c.skip)
  | .inr digits =>
    let ds := (c.rest.drop 1).take digits
    if ds.length < digits then none
    else
      let n ← hexNat? ds
      if (0xD800 ≤ n ∧ n ≤ 0xDFFF) ∨ 0x10FFFF < n then none
      else return (Char.ofNat n, c.skipMany (digits + 1))

/-- Reads the words and gaps of a quoted scalar up to its closing quote; `done` holds what was
read, last first. -/
def quotedFrom (single : Bool) : (fuel : Nat) → (done : List Char) → Cursor →
    Option (String × Cursor)
  | 0, _, _ => none
  | fuel + 1, done, c =>
    match c.rest with
    | [] => none
    | x :: next =>
      if x = (if single then '\'' else '"') then
        if single && next.head? == some '\'' then quotedFrom single fuel ('\'' :: done) (c.skipMany 2)
        else some (String.ofList done.reverse, c.skip)
      else if isBlank x || isBreak x then
        match readGap none fuel {} c with
        | none => none
        | some (g, c) =>
          if c.atDocumentMark then none else quotedFrom single fuel (g.fold.reverse ++ done) c
      else if !single && x = '\\' then
        if next.head?.any isBreak then
          match readGap none fuel { broken := true, escaped := true } c.skip.takeBreak.2 with
          | none => none
          | some (g, c) =>
            if c.atDocumentMark then none else quotedFrom single fuel (g.fold.reverse ++ done) c
        else
          match readEscape? c.skip with
          | none => none
          | some (e, c) => quotedFrom single fuel (e :: done) c
      else quotedFrom single fuel (x :: done) c.skip

def readQuoted (single : Bool) (fuel : Nat) (c : Cursor) : Option (String × Cursor) :=
  if c.skip.atDocumentMark then none else quotedFrom single fuel [] c.skip

/-! ## Plain scalars -/

def isFlowMark (c : Char) : Bool := c = ',' || c = '[' || c = ']' || c = '{' || c = '}'

/-- The characters of a plain word; nothing when a flow collection makes a colon ambiguous. -/
def plainWord (inFlow : Bool) : (fuel : Nat) → (done : List Char) → Cursor →
    Option (List Char × Cursor)
  | 0, done, c => some (done, c)
  | fuel + 1, done, c =>
    match c.peek? with
    | none => some (done, c)
    | some x =>
      if isBlank x || isBreak x then some (done, c)
      else if inFlow && x = ':' && (c.peekAt? 1).any fun y => y = '?' || isFlowMark y then none
      else if x = ':' && c.blankOrEndAt 1 then some (done, c)
      else if inFlow && isFlowMark x then some (done, c)
      else plainWord inFlow fuel (x :: done) c.skip

/-- Reads a plain scalar; `gap` is what stands before the next word. Also whether a line had
ended where it stopped. -/
def plainFrom (inFlow : Bool) (indent : Int) : (fuel : Nat) → (done : List Char) → (gap : Gap) →
    Cursor → Option (String × Bool × Cursor)
  | 0, _, _, _ => none
  | fuel + 1, done, gap, c =>
    let stop (g : Gap) (c : Cursor) := some (String.ofList done.reverse, g.broken, c)
    if c.atDocumentMark || c.isAt '#' then stop gap c
    else
      match plainWord inFlow c.rest.length [] c with
      | none => none
      | some ([], c) => stop gap c
      | some (word, c) =>
        let done := word ++ gap.fold.reverse ++ done
        if c.atBlank || c.atBreak then
          match readGap (some indent) c.rest.length {} c with
          | none => none
          | some (g, c) =>
            if !inFlow && (c.column : Int) < indent then
              some (String.ofList done.reverse, g.broken, c)
            else plainFrom inFlow indent fuel done g c
        else some (String.ofList done.reverse, false, c)

/-! ## Block scalars -/

/-- Passes over indentation and empty lines. `indent` is 0 while it is not known; then the
deepest column met decides it, but at least `least`. -/
def blockBreaks (least : Nat) : (fuel : Nat) → (indent deepest : Nat) → (breaks : List Char) →
    Cursor → Option (Nat × List Char × Cursor)
  | 0, _, _, _, _ => none
  | fuel + 1, indent, deepest, breaks, c =>
    let c := c.skipMany ((c.rest.takeWhile (· = ' ')).length
      |> fun n => if indent = 0 then n else min n (indent - c.column))
    let deepest := max deepest c.column
    if (indent = 0 || c.column < indent) && c.isAt '\t' then none
    else if c.atBreak then
      let (b, c) := c.takeBreak
      blockBreaks least fuel indent deepest (breaks ++ b) c
    else some (if indent = 0 then max (max deepest least) 1 else indent, breaks, c)

/-- Reads the lines of a block scalar. `first` is the break that ended the last line and
`breaks` the empty lines after it; `blankLine` says that the last line began with a blank. -/
def blockLines (literal : Bool) (indent : Nat) : (fuel : Nat) → (done first breaks : List Char) →
    (blankLine : Bool) → Cursor → Option (List Char × List Char × List Char × Cursor)
  | 0, _, _, _, _, _ => none
  | fuel + 1, done, first, breaks, blankLine, c =>
    if c.column ≠ indent || c.atEnd then some (done, first, breaks, c)
    else
      let glue : List Char :=
        if !literal && first.head? == some '\n' && !blankLine && !c.atBlank then
          (if breaks.isEmpty then [' '] else breaks)
        else first ++ breaks
      let blankLine := c.atBlank
      let (line, c) := c.takeWhile fun x => !isBreak x
      let (first, c) := c.takeBreak
      match blockBreaks 0 (c.rest.length + 1) indent 0 [] c with
      | none => none
      | some (_, breaks, c) =>
        blockLines literal indent fuel (line.reverse ++ glue.reverse ++ done) first breaks blankLine c

/-- How the breaks at the end of a block scalar are kept. -/
inductive Chomp where
  | strip | clip | keep

/-- The header of a block scalar after its mark: chomping, and an indentation if given. -/
def blockHeader? (c : Cursor) : Option (Chomp × Nat × Cursor) := do
  let chomp? (c : Cursor) : Option (Chomp × Cursor) :=
    if c.isAt '+' then some (.keep, c.skip) else if c.isAt '-' then some (.strip, c.skip) else none
  let digit? (c : Cursor) : Option (Option (Nat × Cursor)) :=
    match c.peek? with
    | some d =>
      if d = '0' then none
      else if '1' ≤ d ∧ d ≤ '9' then some (some (d.toNat - 48, c.skip))
      else some none
    | none => some none
  match chomp? c with
  | some (chomp, c) =>
    match ← digit? c with
    | some (n, c) => return (chomp, n, c)
    | none => return (chomp, 0, c)
  | none =>
    match ← digit? c with
    | some (n, c) =>
      match chomp? c with
      | some (chomp, c) => return (chomp, n, c)
      | none => return (.clip, n, c)
    | none => return (.clip, 0, c)

/-- Reads a block scalar from its mark on; `parent` is the indentation around it. -/
def readBlock (literal : Bool) (parent : Int) (c : Cursor) : Option (String × Cursor) := do
  let (chomp, increment, c) ← blockHeader? c.skip
  let c := c.skipWhile isBlank
  let c := if c.isAt '#' then c.skipLine else c
  if !(c.atBreak || c.atEnd) then none
  let c := c.takeBreak.2
  let given := if increment = 0 then 0 else parent.toNat + increment
  let (indent, breaks, c) ← blockBreaks (parent + 1).toNat (c.rest.length + 1) given 0 [] c
  let (done, first, breaks, c) ←
    blockLines literal indent (c.rest.length + 1) [] [] breaks false c
  let tail := match chomp with
    | .strip => []
    | .clip => first
    | .keep => first ++ breaks
  return (String.ofList (done.reverse ++ tail), c)

end Workflows.Yaml
