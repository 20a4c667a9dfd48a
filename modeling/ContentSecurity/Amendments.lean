import ContentSecurity.OrderedMap
import ContentSecurity.Scope

/-!
What authors list for directives, and the amendments that are recorded while a request is served.
Scopes stand in amendments as they were written; whether they are scopes is found out when the
amendments are applied.
-/
namespace ContentSecurity

/-- The values an author lists for each directive. -/
abbrev DirectiveValues := OrderedMap (List String)

/-- Appends values to those of a directive. -/
def DirectiveValues.extend (listed : DirectiveValues) (directive : String)
    (values : List String) : DirectiveValues :=
  listed.alter directive fun old => old.getD [] ++ values

/-- The values an author lists under each scope. -/
abbrev ScopedValues := OrderedMap DirectiveValues

def ScopedValues.extend (listed : ScopedValues) (scope directive : String)
    (values : List String) : ScopedValues :=
  listed.alter scope fun old => (old.getD ∅).extend directive values

/-- What is to be done to a store: first a scope is cleared, then values are removed, then added. -/
structure Amendments where
  cleared : Option String
  removed : ScopedValues
  added : ScopedValues
  deriving DecidableEq

namespace Amendments

def empty : Amendments := ⟨none, ∅, ∅⟩

instance : EmptyCollection Amendments := ⟨empty⟩

instance : Inhabited Amendments := ⟨empty⟩

def isEmpty (amendments : Amendments) : Bool :=
  amendments.cleared.isNone && amendments.removed.isEmpty && amendments.added.isEmpty

def sameScopes (listed other : ScopedValues) : Bool :=
  listed.sameEntries (fun values others => values.sameEntries (· == ·) others) other

/-- The same clear and the same values, in whatever order scopes and directives stand. -/
def sameEntries (amendments other : Amendments) : Bool :=
  amendments.cleared == other.cleared && sameScopes amendments.removed other.removed &&
    sameScopes amendments.added other.added

end Amendments

/-- A call with which whoever serves a request amends the store for it. -/
inductive RecordedCall where
  | clear (scope : Scope)
  | add (scope : Scope) (directive : String) (values : List String)
  | remove (scope : Scope) (directive : String) (values : List String)
  deriving DecidableEq, Repr

/-- Records a call beside what has been recorded before. A clear takes the place of an earlier
one. -/
def Amendments.record (amendments : Amendments) : RecordedCall → Amendments
  | .clear scope => { amendments with cleared := some scope.name }
  | .add scope directive values =>
    { amendments with added := amendments.added.extend scope.name directive values }
  | .remove scope directive values =>
    { amendments with removed := amendments.removed.extend scope.name directive values }

end ContentSecurity
