import ContentSecurity.Refusal

/-!
The two policies of a store, and the scopes with which an edit says which of them it means.
-/
namespace ContentSecurity

/-- What becomes of a violation: it is prevented and reported, or only reported. -/
inductive Disposition where
  | enforce | report
  deriving DecidableEq, Repr

inductive Scope where
  | enforce | reportOnly | all
  deriving DecidableEq, Repr

namespace Scope

def name : Scope → String
  | enforce => "enforce"
  | reportOnly => "report-only"
  | all => "all"

/-- Reads a scope for an operation. `both` is another word for `all`. -/
def parse (operation text : String) : Except Refusal Scope :=
  if text = "enforce" then .ok enforce
  else if text = "report-only" then .ok reportOnly
  else if text = "all" ∨ text = "both" then .ok all
  else .error (.unfitScope operation text)

theorem parse_name (operation : String) (scope : Scope) :
    parse operation scope.name = .ok scope := by
  cases scope <;> simp [parse, name]

def covers : Scope → Disposition → Bool
  | enforce, .enforce => true
  | reportOnly, .report => true
  | all, _ => true
  | _, _ => false

/-- The one policy that the scope means. -/
def disposition? : Scope → Option Disposition
  | enforce => some .enforce
  | reportOnly => some .report
  | all => none

end Scope

end ContentSecurity
