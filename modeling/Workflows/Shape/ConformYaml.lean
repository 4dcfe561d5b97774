/-
  Workflows.Shape.ConformYaml — a YAML document against a shape.

  A string may be any scalar, whatever it looks like; numbers and truth values must be plain.
  A record is a mapping whose known keys come once. Collections nest 128 levels at most and
  aliases are followed at most a hundred times for each part of the document.
-/
import Workflows.Shape.Conform
import Workflows.Yaml.Node
import Workflows.Yaml.Plain
namespace Workflows.Shape

open Yaml (ScalarStyle Document)

/-- Reads with a count of the aliases that were followed. -/
abbrev YamlReader := StateT Nat Option

/-- Follows an alias. -/
def follow (d : Document) (anchor : Nat) : YamlReader Yaml.Node := do
  let jumps := (← get) + 1
  if d.size * 100 < jumps then failure
  set jumps
  match d.node? anchor with
  | some n => return n
  | none => failure

def ofOption? {α : Type} : Option α → YamlReader α
  | some a => return a
  | none => failure

/-- A tag of the document's own, which no value may bear. -/
def isOwnTag (tag : Option String) : Bool := tag.any fun t => t.startsWith "!"

def coreTag (name : String) : String := "tag:yaml.org,2002:" ++ name

/-- What a scalar means by its tag and its style. -/
def scalarJson? (tag : Option String) (style : ScalarStyle) (text : String) : Option Json :=
  if isOwnTag tag then none
  else if tag = some (coreTag "bool") then (Yaml.boolText? text).map .bool
  else if tag = some (coreTag "int") then (Yaml.intText? text).bind Yaml.jsonOfInt?
  else if tag = some (coreTag "float") then (Yaml.doubleText? text).map Yaml.jsonOfDouble
  else if tag = some (coreTag "null") then if Yaml.isNullText text then some .null else none
  else if tag.isNone && style = .plain then Yaml.plainJson? text
  else some (.string text)

/-- Whether a scalar may be read as a number or truth value: a plain one, or a literal block
with the tag of the type. -/
def isBare (name : String) (tag : Option String) (style : ScalarStyle) : Bool :=
  style = .plain || (style = .literal && tag = some (coreTag name))

/-- Whether an optional value is left out. -/
def isLeftOut? (tag : Option String) (style : ScalarStyle) (text : String) : Option Bool :=
  if style ≠ .plain then some false
  else if tag = some (coreTag "null") then if Yaml.isNullText text then some true else none
  else if tag.isSome then some false
  else some (text.isEmpty || Yaml.isNullText text)

/-- One level of nesting less. -/
def descend (room : Nat) : YamlReader Nat := if room = 0 then failure else return room - 1

/-- The text of a key: a scalar, or an alias of one. With `strict`, it must mean a string. -/
def keyText (d : Document) (strict : Bool) (n : Yaml.Node) : YamlReader String := do
  let n ← match n with
    | .reference anchor => follow d anchor
    | n => pure n
  match n with
  | .scalar tag style content =>
    if strict then
      match scalarJson? tag style content with
      | some (.string s) => return s
      | _ => failure
    else return content
  | _ => failure

/-- What a node means. -/
def yamlValue (d : Document) (strict : Bool) : (fuel room : Nat) → Yaml.Node → YamlReader Json
  | 0, _, _ => failure
  | fuel + 1, room, n => do
    match n with
    | .reference anchor => yamlValue d strict fuel room (← follow d anchor)
    | .scalar tag style content => ofOption? (scalarJson? tag style content)
    | .sequence tag items =>
      if isOwnTag tag then failure
      let room ← descend room
      return .array (← items.mapM fun x => yamlValue d strict fuel room x)
    | .mapping tag pairs =>
      if isOwnTag tag then failure
      let room ← descend room
      return .ofPairs (← pairs.mapM fun (k, v) => do
        return (← keyText d strict k, ← yamlValue d strict fuel room v))

/-- A scalar, read by its text. -/
def readYamlScalar (d : Document) (bare : Option String) (check : String → Option Json)
    (n : Yaml.Node) : YamlReader Json := do
  let n ← match n with
    | .reference anchor => follow d anchor
    | n => pure n
  match n with
  | .scalar tag style content =>
    if bare.all fun name => isBare name tag style then ofOption? (check content) else failure
  | _ => failure

/-- The items of a sequence; a scalar that is not written counts as none. -/
def yamlItems (d : Document) (n : Yaml.Node) : YamlReader (List Yaml.Node) := do
  let n ← match n with
    | .reference anchor => follow d anchor
    | n => pure n
  match n with
  | .sequence _ items => return items
  | .scalar _ .plain "" => return []
  | _ => failure

/-- The pairs of a mapping; a scalar that is not written counts as none. -/
def yamlPairs (d : Document) (n : Yaml.Node) : YamlReader (List (Yaml.Node × Yaml.Node)) := do
  let n ← match n with
    | .reference anchor => follow d anchor
    | n => pure n
  match n with
  | .mapping _ pairs => return pairs
  | .scalar _ .plain "" => return []
  | _ => failure

/-- A name of a choice: a scalar, or a tag of the document's own before nothing. -/
def yamlChoice (d : Document) (choices : List String) (n : Yaml.Node) : YamlReader Json := do
  let n ← match n with
    | .reference anchor => follow d anchor
    | n => pure n
  match n with
  | .scalar tag style content =>
    let name ←
      if isOwnTag tag then
        if style = .plain && (content.isEmpty || Yaml.isNullText content) then
          pure (match tag with
            | some t => if t = "!" then t else String.ofList (t.toList.drop 1)
            | none => "")
        else failure
      else pure content
    if choices.contains name then return .string name else failure
  | _ => failure

def okOption {ε α : Type} : Except ε α → Option α
  | .ok a => some a
  | .error _ => none

mutual
/-- The plain form of a node that has the shape. -/
def conformYaml (d : Document) : Shape → (room : Nat) → Yaml.Node → YamlReader Json
  | .any, room, n => yamlValue d false 1000 room n
  | .text, _, n => readYamlScalar d none (fun s => some (.string s)) n
  | .boolean, _, n => readYamlScalar d (some "bool") (fun s => (Yaml.boolText? s).map .bool) n
  | .natural bound label, _, n =>
    readYamlScalar d (some "int")
      (fun s => (Yaml.unsignedText? s).bind fun n => okOption (checkNatural bound label n)) n
  | .double, _, n => readYamlScalar d (some "float") (fun s => (Yaml.doubleText? s).map .double) n
  | .time, _, n => readYamlScalar d none (fun s => okOption (checkTime s)) n
  | .path, _, n => readYamlScalar d none (fun s => some (.string s)) n
  | .nullable inner, room, n => do
    let n ← match n with
      | .reference anchor => follow d anchor
      | n => pure n
    match n with
    | .scalar tag style content =>
      if ← ofOption? (isLeftOut? tag style content) then return .null
      else conformYaml d inner room n
    | n => conformYaml d inner room n
  | .list inner, room, n => do
    let items ← yamlItems d n
    if items.isEmpty then return .array []
    let room ← descend room
    return .array (← items.mapM fun x => conformYaml d inner room x)
  | .dict inner, room, n => do
    let pairs ← yamlPairs d n
    if pairs.isEmpty then return .object []
    let room ← descend room
    return .ofPairs (← pairs.mapM fun (k, v) => do
      return (← keyText d false k, ← conformYaml d inner room v))
  | .oneOf choices, _, n => yamlChoice d choices n
  | .names label, room, n => do
    let j ← yamlValue d true 1000 room n
    ofOption? (okOption (checkNames label j))
  | .record _ fields, room, n => do
    let pairs ← yamlPairs d n
    let room ← if pairs.isEmpty then pure room else descend room
    let known ← pairs.foldlM (fun (before : Keyed Json) (k, v) => do
      yamlMember d fields room before (← keyText d false k) v) []
    match missing? fields (Keyed.keys known) with
    | some _ => failure
    | none => return .object known

/-- Adds a member that the record knows; it may not be there already. -/
def yamlMember (d : Document) : List (String × Presence × Shape) → (room : Nat) →
    (before : Keyed Json) → String → Yaml.Node → YamlReader (Keyed Json)
  | [], _, before, _, _ => return before
  | (name, _, shape) :: others, room, before, key, n =>
    if name = key then
      if before.contains key then failure
      else do return before.insert key (← conformYaml d shape room n)
    else yamlMember d others room before key n
end

/-- The plain form of a YAML text that is one document of the shape. A text without a document
counts as one whose root is not written. -/
def parseYaml (shape : Shape) (text : String) : Option Json := do
  let d ← Yaml.parse text
  let (j, _) ← (conformYaml d shape 128 (d.root.getD .absent)).run 0
  return j

end Workflows.Shape
