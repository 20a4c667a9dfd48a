import ContentSecurity.Store

/-!
The log. What is worth a line follows from a store and from what is asked of it, so the lines are
functions beside the operations that they tell of.
-/
namespace ContentSecurity

inductive Event where
  | rejected (refusal : Refusal)
  | clearing (scope : Scope)
  | added (count : Nat) (scope : Scope)
  | removed (scope : Scope)
  | reloaded
  | compilationFailed (refusal : Refusal)
  deriving DecidableEq, Repr

namespace Event

/-- The level and the text of a line. -/
def line : Event → String
  | rejected refusal => s!"DEBUG CSP policy rejected: {refusal.message}"
  | clearing scope => s!"DEBUG clearing CSP policy scope '{scope.name}'"
  | added count scope => s!"DEBUG added {count} directive(s) to CSP policy scope '{scope.name}'"
  | removed scope => s!"DEBUG removed from CSP policy scope '{scope.name}'"
  | reloaded => "INFO CSP policy reloaded"
  | compilationFailed refusal => s!"ERROR CSP policy compilation failed: {refusal.message}"

/-- A refusal is told of where the values of a directive are read. -/
def ofRefusal (refusal : Refusal) : List Event :=
  if refusal.concernsValues then [rejected refusal] else []

/-- What reading a directive tells. -/
def ofReading : Except Refusal Directive → List Event
  | .ok _ => []
  | .error refusal => ofRefusal refusal

end Event

namespace Store

open Event

/-- What one edit tells. -/
def editEvents (store : Store) (edit : Edit) : List Event :=
  match store.edit edit with
  | .error refusal => ofRefusal refusal
  | .ok _ =>
    match edit with
    | .clear scope => [clearing scope]
    | .add scope listed => [added listed.size scope]
    | .remove scope _ => [removed (store.removalScope scope)]

/-- What edits tell that are carried out one after the other, up to the first refusal. -/
def editAllEvents (store : Store) : List (Except Refusal Edit) → List Event
  | [] => []
  | .error _ :: _ => []
  | .ok edit :: rest =>
    store.editEvents edit ++
      match store.edit edit with
      | .ok next => next.editAllEvents rest
      | .error _ => []

/-- What applying amendments tells, whether or not they are refused in the end. -/
def applyEvents (store : Store) (amendments : Amendments) : List Event :=
  store.editAllEvents amendments.edits

/-- What filling a store tells. -/
def ofValuesEvents (vocabulary : Vocabulary) (enforced reported : DirectiveValues) : List Event :=
  (blank vocabulary).editAllEvents [.ok (.add .enforce enforced), .ok (.add .reportOnly reported)]

end Store

end ContentSecurity
