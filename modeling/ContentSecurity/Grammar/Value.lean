import ContentSecurity.Grammar.Rule

/-!
The values that directives carry, recognised as a whole.

* A source is `*`, or `data:` whatever the case of its letters, or a host pattern.
* A host pattern is a host, with a scheme in front or not and with a port behind or not. A host is
  an address literal or a domain. The domain contains a dot or is `localhost`, unless the mark
  `*.` in front stands for any subdomain.
* A report target is a path alone, or a host without that mark, with a scheme in front or not and
  a port and a path behind or not.

No rule has a place for a user name or a password in front of a host.
-/
namespace ContentSecurity

namespace Grammar

/-- A host: whether it stands for any subdomain, if that is allowed here, and its text without the
mark for that. -/
def host (allowsAny : Bool) : Rule (Bool × List Char) := fun input =>
  match addressLiteral input with
  | some (literal, rest) => some ((false, literal), rest)
  | none =>
    let (any, input) := if allowsAny then anySubdomain input else (false, input)
    match domain input with
    | some (name, rest) =>
      if any || name.contains '.' || Text.alike name "localhost".toList then
        some ((any, name), rest)
      else
        none
    | none => none

/-- The rule matches and leaves nothing. -/
def Rule.takesAll (rule : Rule α) (input : List Char) : Bool :=
  match rule input with
  | some (_, []) => true
  | _ => false

end Grammar

/-- The parts of a host pattern as they were written. -/
structure HostPattern where
  scheme : Option Grammar.Scheme
  anySubdomain : Bool
  host : String
  port : Option String
  deriving DecidableEq, Repr

def HostPattern.parse? (value : String) : Option HostPattern :=
  let (scheme, rest) := Grammar.scheme.ifThere value.toList
  match Grammar.host true rest with
  | some ((any, host), rest) =>
    match Grammar.port.ifThere rest with
    | (port, []) => some ⟨scheme, any, String.ofList host, port.map String.ofList⟩
    | _ => none
  | none => none

def isStar (value : String) : Bool :=
  value == "*"

def isDataMark (value : String) : Bool :=
  Text.alike value.toList "data:".toList

def isSource (value : String) : Bool :=
  isStar value || isDataMark value || (HostPattern.parse? value).isSome

/-- A path stands alone; any other target starts with its host. -/
def isReportTarget (value : String) : Bool :=
  match value.toList with
  | '/' :: rest => Grammar.path.takesAll ('/' :: rest)
  | input =>
    let (_, rest) := Grammar.scheme.ifThere input
    match Grammar.host false rest with
    | some (_, rest) =>
      match Grammar.port.ifThere rest with
      | (_, []) => true
      | (_, rest) => Grammar.path.takesAll rest
    | none => false

end ContentSecurity
