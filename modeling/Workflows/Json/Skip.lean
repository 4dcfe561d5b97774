/-
  Workflows.Json.Skip — passing over the value of a member that nobody asked for.

  The value is checked for its brackets, words and the form of its numbers and strings, but
  less is asked of it than of a value that is read: any depth is allowed, a number may be out
  of range and an escaped surrogate may stand alone.
-/
import Workflows.Json.Reader
namespace Workflows.Json

/-- Passes over the rest of a string. `escape` is `none` outside an escape, `some 0` right
after a backslash, and `some (n + 1)` when `n` more hexadecimal digits are due. -/
def skipStringFrom : (escape : Option Nat) → List Char → Except SyntaxError (List Char)
  | _, [] => .error .eofInString
  | none, c :: rest =>
    if c = '"' then .ok rest
    else if c = '\\' then skipStringFrom (some 0) rest
    else if c.toNat < 32 then .error .controlCharacter
    else skipStringFrom none rest
  | some 0, c :: rest =>
    if c = 'u' then skipStringFrom (some 4) rest
    else if (letterEscape? c).isSome then skipStringFrom none rest
    else .error .invalidEscape
  | some (n + 1), c :: rest =>
    match hexValue? c with
    | none => .error (if Text.utf8Length (c :: rest) < n + 1 then .eofInString else .invalidEscape)
    | some _ => skipStringFrom (if n = 0 then none else some n) rest

def skipExponent (cs : List Char) : Except SyntaxError (List Char) :=
  let cs := match cs with
    | '+' :: cs | '-' :: cs => cs
    | cs => cs
  match cs with
  | c :: rest => if isDigit c then .ok (rest.dropWhile isDigit) else .error .invalidNumber
  | [] => .error .invalidNumber

/-- Passes over a number, after its sign. -/
def skipNumber (cs : List Char) : Except SyntaxError (List Char) :=
  let digits := cs.takeWhile isDigit
  let rest := cs.dropWhile isDigit
  match digits with
  | [] => .error .invalidNumber
  | '0' :: _ :: _ => .error .invalidNumber
  | _ =>
    match rest with
    | '.' :: rest =>
      if (rest.takeWhile isDigit).isEmpty then .error .invalidNumber
      else
        match rest.dropWhile isDigit with
        | 'e' :: rest | 'E' :: rest => skipExponent rest
        | rest => .ok rest
    | 'e' :: rest | 'E' :: rest => skipExponent rest
    | rest => .ok rest

/-- Passes over a key and its colon. -/
def skipKey (cs : List Char) : Except SyntaxError (List Char) :=
  match skipBlank cs with
  | [] => .error .eofInObject
  | '"' :: rest => do readColon (← skipStringFrom none rest)
  | _ => .error .keyMustBeString

mutual
def skipValue : (fuel : Nat) → List Char → Except SyntaxError (List Char)
  | 0, _ => .error .eofInValue
  | fuel + 1, cs =>
    match skipBlank cs with
    | [] => .error .eofInValue
    | c :: rest =>
      if c = '[' then
        match skipBlank rest with
        | [] => .error .eofInList
        | ']' :: rest => .ok rest
        | rest => do skipItems fuel (← skipValue fuel rest)
      else if c = '{' then
        match skipBlank rest with
        | [] => .error .eofInObject
        | '}' :: rest => .ok rest
        | rest => do skipMembers fuel (← skipValue fuel (← skipKey rest))
      else if c = '"' then skipStringFrom none rest
      else if c = 'n' then readWord ['u', 'l', 'l'] rest
      else if c = 't' then readWord ['r', 'u', 'e'] rest
      else if c = 'f' then readWord ['a', 'l', 's', 'e'] rest
      else if c = '-' then skipNumber rest
      else if isDigit c then skipNumber (c :: rest)
      else .error .expectedValue

/-- Passes over the items after the first. -/
def skipItems : (fuel : Nat) → List Char → Except SyntaxError (List Char)
  | 0, _ => .error .eofInList
  | fuel + 1, cs =>
    match skipBlank cs with
    | [] => .error .eofInList
    | ']' :: rest => .ok rest
    | ',' :: rest => do skipItems fuel (← skipValue fuel rest)
    | _ => .error .expectedListCommaOrEnd

/-- Passes over the members after the first. -/
def skipMembers : (fuel : Nat) → List Char → Except SyntaxError (List Char)
  | 0, _ => .error .eofInObject
  | fuel + 1, cs =>
    match skipBlank cs with
    | [] => .error .eofInObject
    | '}' :: rest => .ok rest
    | ',' :: rest => do skipMembers fuel (← skipValue fuel (← skipKey rest))
    | _ => .error .expectedObjectCommaOrEnd
end

end Workflows.Json
