/-
  Workflows.Web.Exchange — requests as they are sent, and what comes back.

  A request that a node asks for is first made ready: the address, then the headers one by
  one, then the scheme must be in order; the first fault is the failure. What is sent accepts
  any answer, and a body is JSON unless a header says otherwise. Of the answer the headers
  that are plain ASCII are kept; answers that never have a body have none.
-/
import Workflows.Json.Text
import Workflows.NodeType.Activity
import Workflows.Web.Charset
import Workflows.Web.Url
namespace Workflows.Web

/-- A request as it is sent; header names are in lower case. -/
structure SentRequest where
  method : String
  url : Url
  headers : List (String × String)
  body : Option String
deriving DecidableEq

def SentRequest.line (r : SentRequest) : String := s!"{r.method} {r.url.target} HTTP/1.1"

/-! ## Making ready -/

def isNameChar (c : Char) : Bool :=
  c.isAlphanum || "!#$%&'*+-.^_\x60|~".toList.contains c

/-- Whether a character may stand in the value of a header. -/
def isValueChar (c : Char) : Bool := (32 ≤ c.toNat && c.toNat ≠ 127) || c = '\t'

def builderError (cause : String) : NodeError := .failed ("builder error: " ++ cause)

def checkHeader (name value : String) : Except NodeError (String × String) :=
  if name.isEmpty || !name.toList.all isNameChar then
    .error (builderError "invalid HTTP header name")
  else if !value.toList.all isValueChar then
    .error (builderError "failed to parse header value")
  else .ok (String.ofList (name.toList.map Char.toLower), value)

def schemeError (u : Url) : NodeError :=
  .failed s!"builder error for url ({u.text}): URL scheme is not allowed"

/-- Adds a header unless one of the name is there. -/
def withDefault (headers : List (String × String)) (name value : String) :
    List (String × String) :=
  if headers.any (·.1 == name) then headers else headers ++ [(name, value)]

/-- The request as it is sent, or why it cannot be. -/
def prepare (r : WebRequest) : Except NodeError SentRequest := do
  let url ← match Url.parse r.url with
    | .ok url => pure url
    | .error e => throw (builderError e.message)
  if url.host.isNone then throw (schemeError url)
  let headers ← r.headers.mapM fun (name, value) => checkHeader name value
  let headers := if r.body.isSome then withDefault headers "content-type" "application/json"
    else headers
  if !url.isHttp then throw (schemeError url)
  return { method := r.method, url, headers := withDefault headers "accept" "*/*",
           body := r.body.map Json.compact }

/-- Why a host is not reached: one that is named by numbers refuses, any other is not known. -/
def unreachableCause (u : Url) : String :=
  let host := (u.host.getD "").toList
  if host = "localhost".toList || host.head? = some '[' || Url.endsInNumber host then
    "tcp connect error: Connection refused (os error 111)"
  else "dns error: failed to lookup address information: Name or service not known"

/-- A failure on the way to an answer. -/
def sendError (u : Url) (cause : String) : NodeError :=
  .failed s!"error sending request for url ({u.text}): {cause}"

/-- The failure to reach the host of an address. -/
def unreachable (u : Url) : NodeError :=
  sendError u ("error trying to connect: " ++ unreachableCause u)

/-- Where no host can be reached. -/
def offline (r : WebRequest) : Except NodeError WebResponse :=
  match prepare r with
  | .ok sent => .error (unreachable sent.url)
  | .error e => .error e

/-! ## Answers -/

/-- Whether the answer to a request never has a body. -/
def isBodiless (method : String) (status : Nat) : Bool :=
  method = "HEAD" || status = 204 || status = 304 || status < 200

def trimBlanks (s : String) : String :=
  let isBlank (c : Char) : Bool := c = ' ' || c = '\t'
  let cs := s.toList.dropWhile isBlank
  String.ofList (cs.reverse.dropWhile isBlank).reverse

/-- Whether the value of a header can be shown. -/
def isPlain (value : String) : Bool :=
  value.toList.all fun c => (32 ≤ c.toNat && c.toNat < 127) || c = '\t'

/-- The charset of an answer by its headers. -/
def charsetOf (headers : List (String × String)) : Charset :=
  match headers.find? (·.1 == "content-type") with
  | some (_, value) => if isPlain value then .ofMediaType value else .utf8
  | none => .utf8

/-- Whether a text can go on to be the first line of an answer. -/
def opensAnswer (text : String) : Bool :=
  let start := "HTTP/1.".toList
  text.toList.isPrefixOf start || start.isPrefixOf text.toList

/-- Why nothing can be made of an answer, if so. A status has three digits. One that only
informs of progress stands before the answer proper, for which the rest is taken; a switch of
protocols is an answer. -/
def answerFault? (status : Nat) (body : String) : Option String :=
  if status < 100 || 999 < status then some "invalid HTTP status-code parsed"
  else if status = 101 || 200 ≤ status then none
  else if opensAnswer body then some "connection closed before message completed"
  else some "invalid HTTP version parsed"

/-- The answer as a node sees it. -/
def receive (method : String) (status : Nat) (headers : List (String × String)) (body : String) :
    WebResponse :=
  let headers := headers.map fun (k, v) =>
    (String.ofList (k.toList.map Char.toLower), trimBlanks v)
  { status, headers := headers.filter fun (_, v) => isPlain v,
    body := if isBodiless method status then "" else (charsetOf headers).decode body }

/-- What comes of a request that reached its host. -/
def SentRequest.answered (r : SentRequest) (status : Nat) (headers : List (String × String))
    (body : String) : Except NodeError WebResponse :=
  match answerFault? status body with
  | some cause => .error (sendError r.url cause)
  | none => .ok (receive r.method status headers body)

end Workflows.Web
