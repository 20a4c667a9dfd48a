import ContentSecurity.Counters
import ContentSecurity.Written.SitePolicies

/-!
A deployment keeps the base, the store of the site's policies in force, with its counters. Compiling
applies amendments to a copy of the base; only reloading other policies replaces it.
-/
namespace ContentSecurity

structure Deployment where
  base : Store
  counters : Counters
  deriving DecidableEq

/-- What an operation on a deployment gives, what the deployment is afterwards and what is
logged. -/
structure Outcome (α : Type) where
  result : α
  after : Deployment
  events : List Event

namespace Deployment

/-- A deployment of a site's policies, with its counters at zero. -/
def start (site : SitePolicies) (vocabulary : Vocabulary) : Except Refusal Deployment :=
  (site.store vocabulary).map (⟨·, .zero⟩)

/-- The base with amendments applied to it. -/
def amended (deployment : Deployment) : Option Amendments → Except Refusal Store
  | none => .ok deployment.base
  | some amendments => deployment.base.apply amendments

/-- What applying amendments to the base tells. -/
def amendedEvents (deployment : Deployment) : Option Amendments → List Event
  | none => []
  | some amendments => deployment.base.applyEvents amendments

/-- Makes the store for one request. -/
def compile (deployment : Deployment) (amendments : Option Amendments) :
    Outcome (Except Refusal Store) :=
  let result := deployment.amended amendments
  { result
    after := { deployment with counters := deployment.counters.countCompile result.isOk }
    events := deployment.amendedEvents amendments }

/-- Puts the store of other policies in the place of the base, unless they are refused. -/
def reload (deployment : Deployment) (site : SitePolicies) : Outcome (Except Refusal Unit) :=
  let vocabulary := deployment.base.vocabulary
  let events := site.storeEvents vocabulary
  match site.store vocabulary with
  | .error refusal => ⟨.error refusal, deployment, events⟩
  | .ok base => ⟨.ok (), ⟨base, deployment.counters.countUpdate⟩, events ++ [.reloaded]⟩

/-- Reloads from policies that are still a text. -/
def reloadText (deployment : Deployment) (text : String) : Outcome (Except Refusal Unit) :=
  match SitePolicies.parse text with
  | .error refusal => ⟨.error refusal, deployment, []⟩
  | .ok site => deployment.reload site

def resetCounters (deployment : Deployment) : Deployment :=
  { deployment with counters := .zero }

end Deployment

end ContentSecurity
