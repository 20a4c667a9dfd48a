import ContentSecurity.Amendments
import ContentSecurity.Header.Dialect
import ContentSecurity.Policy

/-!
A store holds the enforced and the reported policy with the vocabulary by which values are read.
Edits give a new store or a refusal, so a refused edit leaves nothing behind; amendments are
applied altogether or not at all.
-/
namespace ContentSecurity

/-- Where a removal acts: on the policy in its own scope, or on both policies. -/
inductive RemovalReach where
  | ownScope | bothPolicies
  deriving DecidableEq, Repr

namespace RemovalReach

def name : RemovalReach → String
  | ownScope => "scoped"
  | bothPolicies => "both-policies"

def ofName? (text : String) : Option RemovalReach :=
  if text = "scoped" then some ownScope
  else if text = "both-policies" then some bothPolicies
  else none

theorem ofName?_name (reach : RemovalReach) : ofName? reach.name = some reach := by
  cases reach <;> simp [ofName?, name]

end RemovalReach

structure Store where
  enforced : Policy
  reported : Policy
  vocabulary : Vocabulary
  reach : RemovalReach
  deriving DecidableEq

/-- One edit of a store. -/
inductive Edit where
  | clear (scope : Scope)
  | add (scope : Scope) (listed : DirectiveValues)
  | remove (scope : Scope) (listed : DirectiveValues)
  deriving DecidableEq

namespace Store

/-- The store without directives. -/
def blank (vocabulary : Vocabulary) : Store :=
  ⟨∅, ∅, vocabulary, .ownScope⟩

def policy (store : Store) : Disposition → Policy
  | .enforce => store.enforced
  | .report => store.reported

def isEmpty (store : Store) : Bool :=
  store.enforced.isEmpty && store.reported.isEmpty

def withReach (store : Store) (reach : RemovalReach) : Store :=
  { store with reach }

/-- Changes the policy of one disposition. -/
def modify (store : Store) (disposition : Disposition) (change : Policy → Policy) : Store :=
  match disposition with
  | .enforce => { store with enforced := change store.enforced }
  | .report => { store with reported := change store.reported }

/-- Changes the policies that a scope covers. -/
def modifyCovered (store : Store) (scope : Scope) (change : Policy → Policy) : Store :=
  { store with
    enforced := if scope.covers .enforce then change store.enforced else store.enforced
    reported := if scope.covers .report then change store.reported else store.reported }

def clear (store : Store) (scope : Scope) : Store :=
  store.modifyCovered scope fun _ => ∅

/-- The directives that a policy gets from listed values. Each is read as a whole, with the values
that the policy already has for it. -/
def staged (vocabulary : Vocabulary) (policy : Policy) (listed : DirectiveValues) :
    Except Refusal (List Directive) :=
  listed.entries.mapM fun (name, values) =>
    vocabulary.readDirective name (((policy.get? name).map Directive.written).getD [] ++ values)

/-- Adds values to one policy; every directive is read before the first is written. -/
def add (store : Store) (scope : Scope) (listed : DirectiveValues) : Except Refusal Store :=
  match scope.disposition? with
  | none => .error (.unfitScope "addToPolicy" scope.name)
  | some disposition => do
    let directives ← staged store.vocabulary (store.policy disposition) listed
    return store.modify disposition fun policy => directives.foldl Policy.insert policy

/-- The scope on which a removal acts. -/
def removalScope (store : Store) (scope : Scope) : Scope :=
  match store.reach with
  | .ownScope => scope
  | .bothPolicies => .all

/-- Removes values from one policy, or from both if removals reach that far. -/
def remove (store : Store) (scope : Scope) (listed : DirectiveValues) : Except Refusal Store :=
  match scope.disposition? with
  | none => .error (.unfitScope "removeFromPolicy" scope.name)
  | some _ => .ok (store.modifyCovered (store.removalScope scope) fun policy =>
      listed.entries.foldl (fun policy entry => policy.without entry.1 entry.2) policy)

/-- Carries out one edit. -/
def edit (store : Store) : Edit → Except Refusal Store
  | .clear scope => .ok (store.clear scope)
  | .add scope listed => store.add scope listed
  | .remove scope listed => store.remove scope listed

/-- A store that starts with the listed values. -/
def ofValues (vocabulary : Vocabulary) (enforced reported : DirectiveValues) :
    Except Refusal Store := do
  let store ← (blank vocabulary).add .enforce enforced
  store.add .reportOnly reported

end Store

/-- The edits that amendments ask for, in the order in which they are carried out. A text that is no
scope stands as the refusal that is met when its turn comes. -/
def Amendments.edits (amendments : Amendments) : List (Except Refusal Edit) :=
  (amendments.cleared.toList.map fun scope => Edit.clear <$> Scope.parse "clear" scope) ++
  (amendments.removed.entries.map fun (scope, listed) =>
    (Edit.remove · listed) <$> Scope.parse "removeFromPolicy" scope) ++
  (amendments.added.entries.map fun (scope, listed) =>
    (Edit.add · listed) <$> Scope.parse "addToPolicy" scope)

namespace Store

/-- Carries out edits one after the other, up to the first refusal. -/
def editAll (store : Store) : List (Except Refusal Edit) → Except Refusal Store
  | [] => .ok store
  | asked :: rest => do
    let edit ← asked
    let next ← store.edit edit
    next.editAll rest

/-- Applies amendments altogether, or refuses them for the first edit that fails. -/
def apply (store : Store) (amendments : Amendments) : Except Refusal Store :=
  store.editAll amendments.edits

/-- The headers of the policies that have directives, the enforced one first. -/
def headers (store : Store) (names : HeaderNames) :
    Except Refusal (List (String × FieldValue)) := do
  let enforced ← store.enforced.fieldValue
  let reported ← store.reported.fieldValue
  return (enforced.toList.map (names.enforced, ·)) ++ (reported.toList.map (names.reported, ·))

end Store

end ContentSecurity
