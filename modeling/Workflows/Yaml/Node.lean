/-
  Workflows.Yaml.Node — a YAML document as a tree.

  `Yaml.parse` reads a text that holds one document, or none. An alias stays in the tree as the
  number of the anchor it names; the document keeps the node of each number. Anchors are
  numbered by how many names there were before, so a name anchored again may share its number
  with a later name, and the node anchored last is the one that counts.
-/
import Workflows.Yaml.Token
namespace Workflows.Yaml

inductive Node where
  | scalar (tag : Option String) (style : ScalarStyle) (text : String)
  | sequence (tag : Option String) (items : List Node)
  | mapping (tag : Option String) (pairs : List (Node × Node))
  | reference (anchor : Nat)
deriving Inhabited

/-- A scalar that is not written at all. -/
def Node.absent : Node := .scalar none .plain ""

structure Parser where
  tokens : List Token
  /-- Prefixes of tags, by handle. -/
  handles : List (String × String) := []
  anchors : List (String × Nat) := []
  /-- The nodes of the anchors, by number, the latest first. -/
  nodes : List (Nat × Node) := []

abbrev Parse := StateT Parser Option

def peek : Parse Token := do return (← get).tokens.headD .streamEnd

def skip : Parse Unit := modify fun p => { p with tokens := p.tokens.drop 1 }

/-- Passes over a token that must stand there. -/
def expect (t : Token) : Parse Unit := do
  if (← peek) = t then skip else failure

/-- Gives a number to the name of an anchor. -/
def bindAnchor (name : String) : Parse Nat := do
  let p ← get
  let id := p.anchors.length
  set { p with anchors := (name, id) :: p.anchors.filter (·.1 != name) }
  return id

def keepNode (id : Nat) (n : Node) : Parse Unit :=
  modify fun p => { p with nodes := (id, n) :: p.nodes.filter (·.1 != id) }

/-- The full name of a tag. -/
def resolveTag (handle suffix : String) : Parse String := do
  if handle.isEmpty then return suffix
  match (← get).handles.find? (·.1 == handle) with
  | some (_, start) => return start ++ suffix
  | none => failure

/-- The anchor and the tag before a node, in either order. -/
def properties : Parse (Option String × Option String) := do
  match ← peek with
  | .anchor name =>
    skip
    match ← peek with
    | .tag handle suffix => skip; return (some name, some (← resolveTag handle suffix))
    | _ => return (some name, none)
  | .tag handle suffix =>
    skip
    match ← peek with
    | .anchor name => skip; return (some name, some (← resolveTag handle suffix))
    | _ => return (none, some (← resolveTag handle suffix))
  | _ => return (none, none)

mutual
/-- A node; `block` admits block collections, `indentless` a sequence whose entries stand at
the column of the key before them. -/
def node : (fuel : Nat) → (block indentless : Bool) → Parse Node
  | 0, _, _ => failure
  | fuel + 1, block, indentless => do
    match ← peek with
    | .reference name =>
      skip
      match (← get).anchors.find? (·.1 == name) with
      | some (_, id) => return .reference id
      | none => failure
    | _ =>
      let (anchor, tag) ← properties
      let id ← anchor.mapM bindAnchor
      let n ← content fuel block indentless anchor.isSome tag
      match id with
      | some id => keepNode id n
      | none => pure ()
      return n

def content : (fuel : Nat) → (block indentless anchored : Bool) → (tag : Option String) → Parse Node
  | 0, _, _, _, _ => failure
  | fuel + 1, block, indentless, anchored, tag => do
    match ← peek with
    | .blockEntry =>
      if indentless then return .sequence tag (← entries fuel true)
      else absentIf (anchored || tag.isSome) tag
    | .scalar style text =>
      skip
      return .scalar (if tag = some "!" then none else tag) style text
    | .flowSequenceStart => skip; return .sequence tag (← flowItems fuel true)
    | .flowMappingStart => skip; return .mapping tag (← flowPairs fuel true)
    | .blockSequenceStart =>
      if block then do skip; return .sequence tag (← entries fuel false)
      else absentIf (anchored || tag.isSome) tag
    | .blockMappingStart =>
      if block then do skip; return .mapping tag (← blockPairs fuel)
      else absentIf (anchored || tag.isSome) tag
    | _ => absentIf (anchored || tag.isSome) tag

/-- The entries of a block sequence up to its end; an indentless one has no end of its own. -/
def entries : (fuel : Nat) → (indentless : Bool) → Parse (List Node)
  | 0, _ => failure
  | fuel + 1, indentless => do
    match ← peek with
    | .blockEntry =>
      skip
      let t ← peek
      let none' := t = .blockEntry || t = .blockEnd || (indentless && (t = .key || t = .value))
      let n ← if none' then pure Node.absent else node fuel true false
      return n :: (← entries fuel indentless)
    | .blockEnd =>
      if !indentless then skip
      return []
    | _ => if indentless then return [] else failure

def blockPairs : (fuel : Nat) → Parse (List (Node × Node))
  | 0 => failure
  | fuel + 1 => do
    match ← peek with
    | .blockEnd => skip; return []
    | .key =>
      skip
      let k ← blockPart fuel
      let v ← blockValue fuel
      return (k, v) :: (← blockPairs fuel)
    | _ => failure

def blockValue : (fuel : Nat) → Parse Node
  | 0 => failure
  | fuel + 1 => do
    if (← peek) = .value then do skip; blockPart fuel else return .absent

/-- A key or a value of a block mapping, which may be absent. -/
def blockPart : (fuel : Nat) → Parse Node
  | 0 => failure
  | fuel + 1 => do
    let t ← peek
    if t = .key || t = .value || t = .blockEnd then return .absent else node fuel true true

def flowItems : (fuel : Nat) → (first : Bool) → Parse (List Node)
  | 0, _ => failure
  | fuel + 1, first => do
    if (← peek) = .flowSequenceEnd then
      skip
      return []
    if !first then expect .flowEntry
    match ← peek with
    | .flowSequenceEnd => skip; return []
    | .key =>
      skip
      let n ← flowPair fuel
      return n :: (← flowItems fuel false)
    | _ =>
      let n ← node fuel false false
      return n :: (← flowItems fuel false)

/-- A pair that stands alone in a flow sequence; its key mark has been read. An absent key
takes the token after it along. -/
def flowPair : (fuel : Nat) → Parse Node
  | 0 => failure
  | fuel + 1 => do
    let t ← peek
    let k ← if t = .value || t = .flowEntry || t = .flowSequenceEnd then do skip; pure Node.absent
      else node fuel false false
    if (← peek) = .value then
      skip
      let t ← peek
      let v ← if t = .flowEntry || t = .flowSequenceEnd then pure Node.absent
        else node fuel false false
      return .mapping none [(k, v)]
    else return .mapping none [(k, .absent)]

def flowPairs : (fuel : Nat) → (first : Bool) → Parse (List (Node × Node))
  | 0, _ => failure
  | fuel + 1, first => do
    if (← peek) = .flowMappingEnd then
      skip
      return []
    if !first then expect .flowEntry
    match ← peek with
    | .flowMappingEnd => skip; return []
    | .key =>
      skip
      let t ← peek
      let k ← if t = .value || t = .flowEntry || t = .flowMappingEnd then pure Node.absent
        else node fuel false false
      let v ← flowValue fuel
      return (k, v) :: (← flowPairs fuel false)
    | _ =>
      let k ← node fuel false false
      return (k, .absent) :: (← flowPairs fuel false)

def flowValue : (fuel : Nat) → Parse Node
  | 0 => failure
  | fuel + 1 => do
    if (← peek) = .value then
      skip
      let t ← peek
      if t = .flowEntry || t = .flowMappingEnd then return .absent else node fuel false false
    else return .absent

/-- An absent scalar where an anchor or a tag stands, else a fault. -/
def absentIf (there : Bool) (tag : Option String) : Parse Node :=
  if there then return .scalar tag .plain "" else failure
end

/-! ## Documents -/

/-- Reads the directives before a document. -/
def directives : (fuel : Nat) → (version : Bool) → (handles : List (String × String)) →
    Parse (List (String × String))
  | 0, _, _ => failure
  | fuel + 1, version, handles => do
    match ← peek with
    | .versionDirective major minor =>
      if version || major ≠ 1 || (minor ≠ 1 && minor ≠ 2) then failure
      skip
      directives fuel true handles
    | .tagDirective handle start =>
      if handles.any (·.1 == handle) then failure
      skip
      directives fuel version (handles ++ [(handle, start)])
    | _ => return handles ++ [("!", "!"), ("!!", "tag:yaml.org,2002:")]

def skipDocumentEnds : (fuel : Nat) → Parse Unit
  | 0 => pure ()
  | fuel + 1 => do
    if (← peek) = .documentEnd then
      skip
      skipDocumentEnds fuel

/-- The root of the one document of a stream; none in an empty stream. -/
def stream (fuel : Nat) : Parse (Option Node) := do
  match ← peek with
  | .streamEnd => return none
  | .versionDirective _ _ | .tagDirective _ _ | .documentStart =>
    let handles ← directives fuel false []
    modify fun p => { p with handles }
    expect .documentStart
    let root ← match ← peek with
      | .versionDirective _ _ | .tagDirective _ _ | .documentStart | .documentEnd | .streamEnd =>
        pure Node.absent
      | _ => node fuel true false
    skipDocumentEnds fuel
    expect .streamEnd
    return some root
  | _ =>
    let handles ← directives fuel false []
    modify fun p => { p with handles }
    let root ← node fuel true false
    skipDocumentEnds fuel
    expect .streamEnd
    return some root

/-- A document: its root, if there is one, and the nodes of its anchors. -/
structure Document where
  root : Option Node
  anchors : List (Nat × Node)
  /-- How many parts the document has: scalars, starts and ends of collections, aliases. -/
  size : Nat

/-- The node of an anchor. -/
def Document.node? (d : Document) (anchor : Nat) : Option Node :=
  (d.anchors.find? (·.1 == anchor)).map (·.2)

mutual
def Node.parts : Node → Nat
  | .scalar _ _ _ => 1
  | .reference _ => 1
  | .sequence _ items => partsOfItems items + 2
  | .mapping _ pairs => partsOfPairs pairs + 2

def Node.partsOfItems : List Node → Nat
  | [] => 0
  | n :: rest => n.parts + partsOfItems rest

def Node.partsOfPairs : List (Node × Node) → Nat
  | [] => 0
  | (k, v) :: rest => k.parts + v.parts + partsOfPairs rest
end

/-- Reads a text that holds at most one document. -/
def parse (text : String) : Option Document := do
  let ts ← tokens? text
  let (root, p) ← (stream (4 * ts.length + 4)).run { tokens := ts }
  return { root, anchors := p.nodes, size := (root.map Node.parts).getD 1 }

end Workflows.Yaml
