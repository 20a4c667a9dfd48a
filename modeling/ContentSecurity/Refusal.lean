import ContentSecurity.Json.Fault

/-!
Why something that is asked of policies is refused, which directive the refusal points at, and how
it reads.
-/
namespace ContentSecurity

/-- Why the text of a file cannot be had. -/
inductive FileFault where
  | notFound
  | notText
  deriving DecidableEq, Repr

/-- What the readers of JSON and of files say of a fault that they find. Their words go into details of
the text or the file at hand that the kind of fault does not tell; they can be left out. -/
structure Wording where
  json : Json.Fault → String := fun _ => ""
  file : FileFault → String := fun _ => ""

inductive Refusal where
  /-- The vocabulary does not know the directive. -/
  | unknownDirective (directive : String)
  /-- Other values stand beside one that tolerates none. -/
  | notAlone (directive value : String)
  | unknownAllowance (value : String)
  | unreadableSource (directive value : String)
  | unreadableTarget (value : String)
  /-- There is no such scope, or the operation does not take it. -/
  | unfitScope (operation scope : String)
  | configuration (text : String)
  | json (fault : Json.Fault)
  | header (text : String)
  | file (fault : FileFault)
  deriving DecidableEq, Repr

namespace Refusal

/-- How a refusal reads, with the words that the readers have for their faults. -/
def message (refusal : Refusal) (wording : Wording := {}) : String :=
  match refusal with
  | unknownDirective directive => s!"'{directive}' is an invalid CSP 1.0 directive"
  | notAlone directive value =>
    s!"'{value}' is exclusive for '{directive}' directive, but other values are set"
  | unknownAllowance value => s!"'{value}' is an invalid CSP 1.0 'sandbox' keyword"
  | unreadableSource directive value => s!"'{value}' is an invalid CSP 1.0 '{directive}' value"
  | unreadableTarget value =>
    s!"'{value}' is an invalid 'report-uri' value, must be of type RFC 3986"
  | unfitScope operation scope => s!"'{scope}' is not a valid policy scope for '{operation}'"
  | configuration text => s!"Config error: {text}"
  | json fault => s!"Serialization error: {wording.json fault}"
  | header text => s!"Header processing error: {text}"
  | file fault => s!"I/O error: {wording.file fault}"

/-- The directive at fault. A sandbox keyword or a report target is put down to the directive of
CSP 1.0 that takes such values. -/
def directive? : Refusal → Option String
  | unknownDirective directive => some directive
  | notAlone directive _ => some directive
  | unreadableSource directive _ => some directive
  | unknownAllowance _ => some "sandbox"
  | unreadableTarget _ => some "report-uri"
  | _ => none

/-- Whether the values of a directive were refused. Such refusals, and no others, point at a
directive. -/
def concernsValues (refusal : Refusal) : Bool :=
  refusal.directive?.isSome

/-- The status of the answer to a request that ends in a refusal. -/
def status (_ : Refusal) : Nat := 500

end Refusal

end ContentSecurity
