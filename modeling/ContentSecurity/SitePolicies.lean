import ContentSecurity.Event

/-!
What the author of a site lays down: the values of both policies and how far removals reach. A
store is built from it.
-/
namespace ContentSecurity

structure SitePolicies where
  enforced : DirectiveValues
  reported : DirectiveValues
  reach : RemovalReach
  deriving DecidableEq

namespace SitePolicies

def empty : SitePolicies := ⟨∅, ∅, .ownScope⟩

instance : EmptyCollection SitePolicies := ⟨empty⟩

instance : Inhabited SitePolicies := ⟨empty⟩

/-- Appends values to an enforced directive. -/
def enforce (site : SitePolicies) (directive : String) (values : List String) : SitePolicies :=
  { site with enforced := site.enforced.extend directive values }

/-- Appends values to a directive that is only reported. -/
def report (site : SitePolicies) (directive : String) (values : List String) : SitePolicies :=
  { site with reported := site.reported.extend directive values }

/-- The store for a site. -/
def store (site : SitePolicies) (vocabulary : Vocabulary) : Except Refusal Store :=
  (Store.ofValues vocabulary site.enforced site.reported).map (·.withReach site.reach)

/-- What building the store tells. -/
def storeEvents (site : SitePolicies) (vocabulary : Vocabulary) : List Event :=
  Store.ofValuesEvents vocabulary site.enforced site.reported

end SitePolicies

end ContentSecurity
