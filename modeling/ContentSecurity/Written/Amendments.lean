import ContentSecurity.Written.Values

/-!
How amendments are written in JSON: an object with a scope to clear and with what is removed and
added under each scope, or a list of these three in that order. What is not there is empty.
Members of other names are skipped.
-/
namespace ContentSecurity

namespace Written

open Json

/-- The members of amendments that have been read so far. -/
structure AmendmentMembers where
  cleared : Option (Option String)
  removed : Option ScopedValues
  added : Option ScopedValues

def AmendmentMembers.toAmendments (members : AmendmentMembers) : Amendments :=
  ⟨members.cleared.getD none, members.removed.getD ∅, members.added.getD ∅⟩

/-- Reads the scope to clear, or `null`. -/
def readCleared : Reader (Option String) := fun input =>
  match dropBlanks input with
  | 'n' :: rest => do
    let (_, rest) ← word "ull".toList rest
    .ok (none, rest)
  | input => do
    let (scope, rest) ← text input
    .ok (some scope, rest)

/-- Reads a member of amendments. The three that count may each come once. -/
def amendmentMember (depth : Nat) (key : String) (members : AmendmentMembers) :
    Reader AmendmentMembers := fun input =>
  if key = "clear" then
    if members.cleared.isSome then .error .mismatched
    else do
      let (cleared, rest) ← memberValue readCleared input
      .ok ({ members with cleared := some cleared }, rest)
  else if key = "removeFromPolicy" then
    if members.removed.isSome then .error .mismatched
    else do
      let (removed, rest) ← memberValue (readScopedValues depth) input
      .ok ({ members with removed := some removed }, rest)
  else if key = "addToPolicy" then
    if members.added.isSome then .error .mismatched
    else do
      let (added, rest) ← memberValue (readScopedValues depth) input
      .ok ({ members with added := some added }, rest)
  else do
    let (_, rest) ← memberValue skip input
    .ok (members, rest)

/-- Reads the three parts as a list, of which the last ones may be missing. -/
def amendmentList (depth : Nat) : Reader AmendmentMembers := fun input => do
  let (cleared, rest) ← element? readCleared true input
  let (removed, rest) ← element? (readScopedValues depth) false rest
  let (added, rest) ← element? (readScopedValues depth) false rest
  let (_, rest) ← mark ']' rest
  .ok (⟨cleared, removed, added⟩, rest)

def readAmendments : Reader Amendments := fun input => do
  let depth := deepest - 1
  let (members, rest) ←
    match dropBlanks input with
    | '\x7b' :: rest => object true (amendmentMember depth) ⟨none, none, none⟩ rest
    | '[' :: rest => amendmentList depth rest
    | input => refuse input
  .ok (members.toAmendments, rest)

/-- The members that are written: those that are not empty. -/
def amendmentEntries (amendments : Amendments) : List (String × List Char) :=
  (amendments.cleared.toList.map fun scope => ("clear", quote scope)) ++
  (if amendments.removed.isEmpty then []
    else [("removeFromPolicy", writeScopedValues amendments.removed)]) ++
  (if amendments.added.isEmpty then []
    else [("addToPolicy", writeScopedValues amendments.added)])

end Written

namespace Amendments

def parse (text : String) : Except Refusal Amendments :=
  (Json.readAll Written.readAmendments text).mapError .json

def render (amendments : Amendments) : String :=
  String.ofList (Json.writeObject (Written.amendmentEntries amendments))

end Amendments

end ContentSecurity
