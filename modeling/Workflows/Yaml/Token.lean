/-
  Workflows.Yaml.Token — a YAML text as tokens.

  Indentation becomes tokens: where a block collection starts deeper than the one around it a
  start is produced, and where a line begins further left an end. Whether something is a key
  shows only at the colon after it, so the places where a key may have begun are remembered,
  one for each level of flow collections; a colon then puts the key's tokens in at that place.
  Such a key must end on its own line and within 1024 characters.
-/
import Workflows.Yaml.Scalar
namespace Workflows.Yaml

inductive ScalarStyle where
  | plain | singleQuoted | doubleQuoted | literal | folded
deriving DecidableEq, Repr

inductive Token where
  | versionDirective (major minor : Nat)
  | tagDirective (handle start : String)
  | documentStart | documentEnd | streamEnd
  | blockSequenceStart | blockMappingStart | blockEnd
  | flowSequenceStart | flowSequenceEnd | flowMappingStart | flowMappingEnd
  | blockEntry | flowEntry | key | value
  | reference (name : String)
  | anchor (name : String)
  | tag (handle suffix : String)
  | scalar (style : ScalarStyle) (text : String)
deriving DecidableEq, Repr

/-- A place where a key may have begun. -/
structure PossibleKey where
  /-- How many tokens came before. -/
  tokens : Nat
  place : Cursor
  /-- Nothing else can stand there, so its colon must come. -/
  required : Bool

structure Scanner where
  cursor : Cursor
  tokens : Array Token := #[]
  indent : Int := -1
  /-- The indentations around, innermost first. -/
  outer : List Int := []
  /-- The possible key of each flow level, innermost first. -/
  keys : List (Option PossibleKey) := [none]
  flowLevel : Nat := 0
  /-- Whether a key may begin here. -/
  keyAllowed : Bool := true

namespace Scanner

def emit (s : Scanner) (t : Token) : Scanner := { s with tokens := s.tokens.push t }

def inFlow (s : Scanner) : Bool := s.flowLevel ≠ 0

/-! ## Blanks and comments -/

/-- Passes over blanks, comments and line breaks. A tab counts as a blank only where it cannot
be taken for indentation. -/
def skipToToken : (fuel : Nat) → Scanner → Scanner
  | 0, s => s
  | fuel + 1, s =>
    let c := if s.cursor.index = 0 && s.cursor.isAt '\ufeff' then s.cursor.skip else s.cursor
    let tabs := s.inFlow || !s.keyAllowed
    let c := c.skipWhile fun x => x = ' ' || (tabs && x = '\t')
    let c := if c.isAt '#' then c.skipLine else c
    if c.atBreak then
      skipToToken fuel { s with cursor := c.takeBreak.2, keyAllowed := s.keyAllowed || !s.inFlow }
    else { s with cursor := c }

/-! ## Possible keys -/

/-- Forgets the places too far back for a key; nothing if one of them required its colon. -/
def dropStaleKeys (s : Scanner) : Option Scanner := do
  let stale (k : PossibleKey) : Bool :=
    k.place.line < s.cursor.line || k.place.index + 1024 < s.cursor.index
  if s.keys.any fun k => k.any fun k => stale k && k.required then none
  else return { s with keys := s.keys.map fun k => k.filter fun k => !stale k }

/-- Forgets the possible key of the innermost level; nothing if it required its colon. -/
def dropKey (s : Scanner) : Option Scanner :=
  match s.keys with
  | some k :: rest => if k.required then none else some { s with keys := none :: rest }
  | _ => some s

/-- Remembers that a key may begin here. -/
def saveKey (s : Scanner) : Option Scanner :=
  if s.keyAllowed then do
    let s ← s.dropKey
    let required := !s.inFlow && s.indent = (s.cursor.column : Int)
    return { s with keys := some ⟨s.tokens.size, s.cursor, required⟩ :: s.keys.drop 1 }
  else some s

/-! ## Indentation -/

/-- Starts a block collection at a column deeper than the current one; its token goes to the
given place among the tokens. -/
def roll (s : Scanner) (column : Nat) (place : Nat) (t : Token) : Scanner :=
  if s.inFlow || (column : Int) ≤ s.indent then s
  else
    { s with indent := column, outer := s.indent :: s.outer,
             tokens := s.tokens.insertIdxIfInBounds place t }

/-- Ends the block collections deeper than a column. -/
def unroll (column : Int) : (fuel : Nat) → Scanner → Scanner
  | 0, s => s
  | fuel + 1, s =>
    if s.inFlow || s.indent ≤ column then s
    else unroll column fuel
      { s.emit .blockEnd with indent := s.outer.headD (-1), outer := s.outer.drop 1 }

def unrollTo (s : Scanner) (column : Int) : Scanner := unroll column (s.outer.length + 1) s

/-! ## Tokens -/

/-- One character that is a token by itself. -/
def mark (s : Scanner) (t : Token) : Scanner := { s.emit t with cursor := s.cursor.skip }

def documentMark (s : Scanner) (t : Token) : Option Scanner := do
  let s ← (s.unrollTo (-1)).dropKey
  return { s.emit t with cursor := s.cursor.skipMany 3, keyAllowed := false }

def flowStart (s : Scanner) (t : Token) : Option Scanner := do
  let s ← s.saveKey
  return { s.mark t with keys := none :: s.keys, flowLevel := s.flowLevel + 1, keyAllowed := true }

def flowEnd (s : Scanner) (t : Token) : Option Scanner := do
  let s ← s.dropKey
  let s := if s.inFlow then { s with keys := s.keys.drop 1, flowLevel := s.flowLevel - 1 } else s
  return { s.mark t with keyAllowed := false }

def flowEntry (s : Scanner) : Option Scanner := do
  let s ← s.dropKey
  return { s.mark .flowEntry with keyAllowed := true }

def blockEntry (s : Scanner) : Option Scanner := do
  if !s.inFlow && !s.keyAllowed then none
  let s ← (s.roll s.cursor.column s.tokens.size .blockSequenceStart).dropKey
  return { s.mark .blockEntry with keyAllowed := true }

def keyMark (s : Scanner) : Option Scanner := do
  if !s.inFlow && !s.keyAllowed then none
  let s ← (s.roll s.cursor.column s.tokens.size .blockMappingStart).dropKey
  return { s.mark .key with keyAllowed := !s.inFlow }

def valueMark (s : Scanner) : Option Scanner :=
  match s.keys with
  | some k :: rest =>
    let s := { s with tokens := s.tokens.insertIdxIfInBounds k.tokens .key, keys := none :: rest }
    let s := s.roll k.place.column k.tokens .blockMappingStart
    some { s.mark .value with keyAllowed := false }
  | _ =>
    if !s.inFlow && !s.keyAllowed then none
    else
      let s := s.roll s.cursor.column s.tokens.size .blockMappingStart
      some { s.mark .value with keyAllowed := !s.inFlow }

def isWordChar (c : Char) : Bool := c.isAlphanum || c = '_' || c = '-'

/-- An anchor or an alias, from its mark on. -/
def anchorName (s : Scanner) (make : String → Token) : Option Scanner := do
  let s ← s.saveKey
  let (name, c) := s.cursor.skip.takeWhile isWordChar
  let ends := c.blankOrEndAt 0 || c.peek?.any fun x => "?:,]\x7d%@\x60".toList.contains x
  if name.isEmpty || !ends then none
  else return { s.emit (make (String.ofList name)) with cursor := c, keyAllowed := false }

/-! ### Tags and directives -/

def isUriChar (c : Char) : Bool := isWordChar c || ";/?:@&=+$.!~*'()".toList.contains c

/-- Reads the bytes of `%xx` escapes that make one character. -/
def uriEscape? (c : Cursor) : Option (Char × Cursor) := do
  let byte (c : Cursor) : Option (Nat × Cursor) :=
    match c.rest with
    | '%' :: a :: b :: _ => (hexNat? [a, b]).map fun n => (n, c.skipMany 3)
    | _ => none
  let (b0, c) ← byte c
  if b0 < 0x80 then return (Char.ofNat b0, c)
  let (more, start) ← if 0xC0 ≤ b0 ∧ b0 < 0xE0 then some (1, b0 - 0xC0)
    else if 0xE0 ≤ b0 ∧ b0 < 0xF0 then some (2, b0 - 0xE0)
    else if 0xF0 ≤ b0 ∧ b0 < 0xF8 then some (3, b0 - 0xF0) else none
  let (n, c) ← (List.range more).foldlM (fun (n, c) _ => do
    let (b, c) ← byte c
    if 0x80 ≤ b ∧ b < 0xC0 then some (n * 64 + (b - 0x80), c) else none) (start, c)
  return (Char.ofNat n, c)

/-- Reads the characters of a tag; `verbatim` admits flow marks as well. -/
def uriFrom (verbatim : Bool) : (fuel : Nat) → (done : List Char) → Cursor →
    Option (List Char × Cursor)
  | 0, done, c => some (done.reverse, c)
  | fuel + 1, done, c =>
    match c.peek? with
    | none => some (done.reverse, c)
    | some x =>
      if x = '%' then
        match uriEscape? c with
        | some (y, c) => uriFrom verbatim fuel (y :: done) c
        | none => none
      else if isUriChar x || (verbatim && (x = ',' || x = '[' || x = ']')) then
        uriFrom verbatim fuel (x :: done) c.skip
      else some (done.reverse, c)

def uri (verbatim : Bool) (c : Cursor) : Option (List Char × Cursor) :=
  uriFrom verbatim (c.rest.length + 1) [] c

/-- A handle: `!`, word characters, and a closing `!` if it stands there. -/
def tagHandle (c : Cursor) : List Char × Cursor :=
  let (word, c) := c.skip.takeWhile isWordChar
  if c.isAt '!' then ('!' :: word ++ ['!'], c.skip) else ('!' :: word, c)

def tag (s : Scanner) : Option Scanner := do
  let s ← s.saveKey
  let (handle, suffix, c) ←
    if s.cursor.peekAt? 1 = some '<' then do
      let (name, c) ← uri true (s.cursor.skipMany 2)
      if name.isEmpty || !c.isAt '>' then none
      else some ("", String.ofList name, c.skip)
    else do
      let (handle, c) := tagHandle s.cursor
      if 2 ≤ handle.length && handle.getLast? == some '!' then do
        let (suffix, c) ← uri false c
        if suffix.isEmpty then none else some (String.ofList handle, String.ofList suffix, c)
      else do
        let (more, c) ← uri false c
        let suffix := handle.drop 1 ++ more
        if suffix.isEmpty then some ("", "!", c) else some ("!", String.ofList suffix, c)
  if !(c.blankOrEndAt 0 || (s.inFlow && c.isAt ',')) then none
  return { s.emit (.tag handle suffix) with cursor := c, keyAllowed := false }

/-- The rest of a directive's line: blanks and a comment. -/
def endDirective? (c : Cursor) : Option Cursor :=
  let c := c.skipWhile isBlank
  let c := if c.isAt '#' then c.skipLine else c
  if c.atBreak || c.atEnd then some c.takeBreak.2 else none

def versionNumber? (c : Cursor) : Option (Nat × Cursor) :=
  let (ds, c) := c.takeWhile Char.isDigit
  if ds.isEmpty || 9 < ds.length then none
  else some (ds.foldl (fun n d => n * 10 + (d.toNat - 48)) 0, c)

def directive (s : Scanner) : Option Scanner := do
  let s ← (s.unrollTo (-1)).dropKey
  let (name, c) := s.cursor.skip.takeWhile isWordChar
  if name.isEmpty || !c.blankOrEndAt 0 then none
  let c := c.skipWhile isBlank
  match String.ofList name with
  | "YAML" =>
    let (major, c) ← versionNumber? c
    if !c.isAt '.' then none
    let (minor, c) ← versionNumber? c.skip
    let c ← endDirective? c
    return { s.emit (.versionDirective major minor) with cursor := c, keyAllowed := false }
  | "TAG" =>
    if !c.isAt '!' then none
    let (handle, c) := tagHandle c
    if handle ≠ ['!'] && handle.getLast? ≠ some '!' then none
    if !c.atBlank then none
    let (start, c) ← uri true (c.skipWhile isBlank)
    if start.isEmpty || !c.blankOrEndAt 0 then none
    let c ← endDirective? c
    return { s.emit (.tagDirective (String.ofList handle) (String.ofList start)) with
             cursor := c, keyAllowed := false }
  | _ => none

/-! ### Scalars -/

def blockScalar (s : Scanner) (literal : Bool) : Option Scanner := do
  let s ← s.dropKey
  let (text, c) ← readBlock literal s.indent s.cursor
  return { s.emit (.scalar (if literal then .literal else .folded) text) with
           cursor := c, keyAllowed := true }

def quotedScalar (s : Scanner) (single : Bool) : Option Scanner := do
  let s ← s.saveKey
  let (text, c) ← readQuoted single (s.cursor.rest.length + 1) s.cursor
  return { s.emit (.scalar (if single then .singleQuoted else .doubleQuoted) text) with
           cursor := c, keyAllowed := false }

def plainScalar (s : Scanner) : Option Scanner := do
  let s ← s.saveKey
  let (text, broken, c) ←
    plainFrom s.inFlow (s.indent + 1) (s.cursor.rest.length + 1) [] {} s.cursor
  return { s.emit (.scalar .plain text) with cursor := c, keyAllowed := broken }

/-- Whether a plain scalar may begin with the character here. -/
def plainStart (s : Scanner) : Bool :=
  let c := s.cursor
  match c.peek? with
  | none => false
  | some x =>
    !(isBlank x || isBreak x || "-?:,[]\x7b\x7d#&*!|>'\"%@\x60".toList.contains x)
      || (x = '-' && !(c.peekAt? 1).any isBlank)
      || (!s.inFlow && (x = '?' || x = ':') && !c.blankOrEndAt 1)

/-- The next token; `none` when there is a fault. -/
def next (s : Scanner) : Option Scanner := do
  let s := skipToToken (s.cursor.rest.length + 1) s
  let s ← s.dropStaleKeys
  let s := s.unrollTo s.cursor.column
  let c := s.cursor
  match c.peek? with
  | none =>
    let s ← (s.unrollTo (-1)).dropKey
    return s.emit .streamEnd
  | some x =>
    if c.column = 0 && x = '%' then s.directive
    else if c.atDocumentMark then s.documentMark (if x = '-' then .documentStart else .documentEnd)
    else if x = '[' then s.flowStart .flowSequenceStart
    else if x = '{' then s.flowStart .flowMappingStart
    else if x = ']' then s.flowEnd .flowSequenceEnd
    else if x = '}' then s.flowEnd .flowMappingEnd
    else if x = ',' then s.flowEntry
    else if x = '-' && c.blankOrEndAt 1 then s.blockEntry
    else if x = '?' && (s.inFlow || c.blankOrEndAt 1) then s.keyMark
    else if x = ':' && (s.inFlow || c.blankOrEndAt 1) then s.valueMark
    else if x = '*' then s.anchorName .reference
    else if x = '&' then s.anchorName .anchor
    else if x = '!' then s.tag
    else if x = '|' && !s.inFlow then s.blockScalar true
    else if x = '>' && !s.inFlow then s.blockScalar false
    else if x = '\'' then s.quotedScalar true
    else if x = '"' then s.quotedScalar false
    else if s.plainStart then s.plainScalar
    else none

def all : (fuel : Nat) → Scanner → Option (List Token)
  | 0, _ => none
  | fuel + 1, s =>
    match s.next with
    | none => none
    | some s =>
      if s.tokens.back? = some .streamEnd then some s.tokens.toList else all fuel s

end Scanner

/-- The characters a YAML text may hold. -/
def isAllowed (c : Char) : Bool :=
  let n := c.toNat
  n = 0x9 || n = 0xA || n = 0xD || (0x20 ≤ n && n ≤ 0x7E) || n = 0x85 || (0xA0 ≤ n && n ≤ 0xFFFD)
    || 0x10000 ≤ n

/-- The tokens of a text, up to and with the end of the stream. -/
def tokens? (text : String) : Option (List Token) :=
  let cs := match text.toList with
    | '\ufeff' :: rest => rest
    | cs => cs
  if cs.all isAllowed then Scanner.all (2 * cs.length + 2) { cursor := { rest := cs } } else none

end Workflows.Yaml
