/-
  Workflows.Web.Url — addresses on the web.

  Reading follows the URL standard: blanks at the ends and tabs and line ends anywhere are
  dropped, the scheme and the host are written in lower case, a backslash counts as a slash
  where the scheme is that of the web, the steps `.` and `..` of a path are carried out, and
  what may not stand for itself is percent-encoded. There is no address to be relative to.
-/
import Workflows.Numeric.Power
import Workflows.Web.Percent
namespace Workflows.Web

/-- Why a text is no address. -/
inductive UrlError where
  | noScheme | emptyHost | invalidHost | invalidPort | invalidIpv4 | invalidIpv6
deriving DecidableEq, Repr

def UrlError.message : UrlError → String
  | .noScheme => "relative URL without a base"
  | .emptyHost => "empty host"
  | .invalidHost => "invalid international domain name"
  | .invalidPort => "invalid port number"
  | .invalidIpv4 => "invalid IPv4 address"
  | .invalidIpv6 => "invalid IPv6 address"

/-- An address. Without a host the path may be any text. -/
structure Url where
  scheme : String
  host : Option String := none
  port : Option Nat := none
  path : String := ""
  query : Option String := none
  fragment : Option String := none
deriving DecidableEq, Repr

namespace Url

/-- The schemes whose addresses all have a host, with their usual ports. -/
def usualPorts : List (String × Nat) :=
  [("http", 80), ("https", 443), ("ws", 80), ("wss", 443), ("ftp", 21)]

def isSpecial (scheme : String) : Bool := usualPorts.any (·.1 == scheme)

def isHttp (u : Url) : Bool := u.scheme = "http" || u.scheme = "https"

/-! ## Writing -/

/-- Scheme, host and port. -/
def origin (u : Url) : String :=
  let port := match u.port with
    | some n => s!":{n}"
    | none => ""
  match u.host with
  | some host => s!"{u.scheme}://{host}{port}"
  | none => s!"{u.scheme}:"

/-- What a request for the address asks its host for. -/
def target (u : Url) : String :=
  match u.query with
  | some q => u.path ++ "?" ++ q
  | none => u.path

def text (u : Url) : String :=
  let fragment := match u.fragment with
    | some f => "#" ++ f
    | none => ""
  u.origin ++ u.target ++ fragment

/-! ## What may stand for itself -/

def isControl (c : Char) : Bool := c.toNat < 32 || c.toNat = 127

def keptInFragment (c : Char) : Bool := !isControl c && !" \"<>\x60".toList.contains c

def keptInPath (c : Char) : Bool := keptInFragment c && !"#?\x7b\x7d".toList.contains c

def keptInQuery (special : Bool) (c : Char) : Bool :=
  !isControl c && !" \"#<>".toList.contains c && !(special && c = '\'')

/-! ## Reading -/

/-- Drops controls and blanks at the ends, and tabs and line ends. -/
def clean (s : String) : List Char :=
  let isEdge (c : Char) : Bool := c.toNat ≤ 32
  let cs := s.toList.dropWhile isEdge
  ((cs.reverse.dropWhile isEdge).reverse).filter fun c => c ≠ '\t' && c ≠ '\n' && c ≠ '\r'

def lower (cs : List Char) : List Char := cs.map Char.toLower

/-- The scheme in lower case and what follows its colon. -/
def readScheme? (cs : List Char) : Option (String × List Char) :=
  match cs with
  | [] => none
  | c :: _ =>
    if c.isAlpha then
      let isPart (c : Char) : Bool := c.isAlphanum || c = '+' || c = '-' || c = '.'
      match cs.dropWhile isPart with
      | ':' :: rest => some (String.ofList (lower (cs.takeWhile isPart)), rest)
      | _ => none
    else none

def isSlash (special : Bool) (c : Char) : Bool := c = '/' || (special && c = '\\')

/-- Whether a character ends the host and the port. -/
def endsAuthority (special : Bool) (c : Char) : Bool :=
  isSlash special c || c = '?' || c = '#'

/-- Characters that no host may hold. -/
def isForbiddenInHost (c : Char) : Bool :=
  isControl c || " #/:<>?@[\\]^|%".toList.contains c

/-- The digits of a number in its base: a `0x` makes it hexadecimal, a zero in front octal. -/
def ipv4Part? (cs : List Char) : Option Nat :=
  let ofBase (base : Nat) (ds : List Char) : Option Nat :=
    ds.foldlM (fun n d => (hexValue? d).bind fun v => if v < base then some (n * base + v) else none) 0
  match cs with
  | [] => none
  | ['0'] => some 0
  | '0' :: x :: ds => if x = 'x' ∨ x = 'X' then ofBase 16 ds else ofBase 8 (x :: ds)
  | ds => ofBase 10 ds

/-- The value of the parts of a number with dots: the last part fills what is left. -/
def ipv4Value? (parts : List Nat) : Option Nat :=
  match parts.reverse with
  | [] => none
  | last :: front =>
    if 3 < front.length ∨ front.any (255 < ·) then none
    else if pow2 (8 * (4 - front.length)) ≤ last then none
    else some (front.reverse.foldl (fun n p => n * 256 + p) 0 * pow2 (8 * (4 - front.length)) + last)

def ipv4Text (n : Nat) : String :=
  s!"{n / 16777216}.{n / 65536 % 256}.{n / 256 % 256}.{n % 256}"

/-- The labels of a host, without an empty one at the end. -/
def labels (host : List Char) : List (List Char) :=
  let ls := host.splitOn '.'
  if ls.getLast? = some [] ∧ 1 < ls.length then ls.dropLast else ls

/-- Whether a host is a number with dots, well formed or not. -/
def endsInNumber (host : List Char) : Bool :=
  match (labels host).getLast? with
  | some l => !l.isEmpty && (l.all Char.isDigit || (ipv4Part? l).isSome)
  | none => false

/-- A host of an address of the web. -/
def readHost (cs : List Char) : Except UrlError String :=
  match cs with
  | [] => .error .emptyHost
  | '[' :: rest =>
    let inner := rest.dropLast
    if rest.getLast? = some ']' ∧ inner.all (fun c => (hexValue? c).isSome || c = ':' || c = '.')
        ∧ 2 ≤ (inner.filter (· = ':')).length then
      .ok (String.ofList (lower cs))
    else .error .invalidIpv6
  | cs =>
    match percentDecode? (String.ofList cs) with
    | none => .error .invalidHost
    | some host =>
      let host := lower host.toList
      if host.isEmpty || host.any isForbiddenInHost then .error .invalidHost
      else if endsInNumber host then
        match ((labels host).mapM ipv4Part?).bind ipv4Value? with
        | some n => .ok (ipv4Text n)
        | none => .error .invalidIpv4
      else .ok (String.ofList host)

/-- Host and port text: the colon that parts them stands outside brackets. -/
def splitPort : (inBrackets : Bool) → List Char → List Char × Option (List Char)
  | _, [] => ([], none)
  | inside, c :: rest =>
    if c = ':' ∧ !inside then ([], some rest)
    else
      let (host, port) := splitPort (if c = '[' then true else if c = ']' then false else inside) rest
      (c :: host, port)

/-- A port up to 65535, unless it is the usual one. -/
def readPort (scheme : String) : Option (List Char) → Except UrlError (Option Nat)
  | none => .ok none
  | some ds =>
    if !ds.all Char.isDigit then .error .invalidPort
    else if ds.isEmpty then .ok none
    else
      let n := ds.foldl (fun n d => n * 10 + (d.toNat - 48)) 0
      if 65535 < n then .error .invalidPort
      else .ok (if usualPorts.contains (scheme, n) then none else some n)

/-- What stands after the last `@`: user and password are no part of the address itself. -/
def afterUser (cs : List Char) : List Char := (cs.reverse.takeWhile (· ≠ '@')).reverse

def isSingleDot (segment : List Char) : Bool :=
  [".", "%2e"].contains (String.ofList (lower segment))

def isDoubleDot (segment : List Char) : Bool :=
  ["..", ".%2e", "%2e.", "%2e%2e"].contains (String.ofList (lower segment))

/-- Carries out the steps of a path; `before` holds the segments so far, the last first. A
step at the very end leaves an empty segment. -/
def walk : (before : List (List Char)) → List (List Char) → List (List Char)
  | before, [] => before.reverse
  | before, s :: rest =>
    let isLast := rest.isEmpty
    if isDoubleDot s then walk (if isLast then [] :: before.drop 1 else before.drop 1) rest
    else if isSingleDot s then walk (if isLast then [] :: before else before) rest
    else walk (s :: before) rest

/-- The path of the text after the host. -/
def readPath (special : Bool) (cs : List Char) : String :=
  let cs := cs.map fun c => if isSlash special c then '/' else c
  match cs with
  | [] => if special then "/" else ""
  | c :: rest =>
    let segments := (if c = '/' then rest else cs).splitOn '/'
    String.ofList ((walk [] segments).flatMap fun s => '/' :: percentEncode keptInPath s)

/-- Adds query and fragment to an address. -/
def withTail (u : Url) (special : Bool) (cs : List Char) : Url :=
  let (beforeHash, afterHash) := (cs.takeWhile (· ≠ '#'), cs.dropWhile (· ≠ '#'))
  let fragment := match afterHash with
    | _ :: f => some (String.ofList (percentEncode keptInFragment f))
    | [] => none
  let query := match beforeHash with
    | '?' :: q => some (String.ofList (percentEncode (keptInQuery special) q))
    | _ => none
  { u with query, fragment }

/-- An address with a host: `cs` stands after the two slashes. -/
def readHosted (scheme : String) (cs : List Char) : Except UrlError Url := do
  let special := isSpecial scheme
  let authority := cs.takeWhile (!endsAuthority special ·)
  let rest := cs.dropWhile (!endsAuthority special ·)
  let (hostText, portText) := splitPort false (afterUser authority)
  let host ← if special then readHost hostText
    else pure (String.ofList (percentEncode (fun c => !isControl c) hostText))
  let port ← readPort scheme portText
  let isPath (c : Char) : Bool := c ≠ '?' && c ≠ '#'
  let path := readPath special (rest.takeWhile isPath)
  return withTail { scheme, host := some host, port, path } special
    (rest.dropWhile isPath)

/-- Reads an address. -/
def parse (s : String) : Except UrlError Url :=
  match readScheme? (clean s) with
  | none => .error .noScheme
  | some (scheme, rest) =>
    if isSpecial scheme then readHosted scheme (rest.dropWhile (isSlash true))
    else match rest with
    | '/' :: '/' :: rest => readHosted scheme rest
    | rest =>
      let isPath (c : Char) : Bool := c ≠ '?' && c ≠ '#'
      let pathText := rest.takeWhile isPath
      let path := if pathText.head? = some '/' then readPath false pathText
        else String.ofList (percentEncode (fun c => !isControl c) pathText)
      .ok (withTail { scheme, path } false (rest.dropWhile isPath))

end Url
end Workflows.Web
