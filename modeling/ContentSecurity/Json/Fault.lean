/-!
What can be wrong with a JSON text that is read as a value of a given type.
-/
namespace ContentSecurity.Json

inductive Fault where
  /-- The text ends before the value does. -/
  | truncated
  /-- The text is no JSON. -/
  | malformed
  /-- The text is JSON, but not of the form that is asked for. -/
  | mismatched
  deriving DecidableEq, Repr

end ContentSecurity.Json
