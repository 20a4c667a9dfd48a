import ContentSecurity.SitePolicies
import ContentSecurity.Written.Values

/-!
How the policies of a site are written in JSON: an object with the values of the two policies and
the reach of removals, or a list of these three in that order. What is not there is empty, and
removals then reach no farther than their own scope. Members of other names are refused.
-/
namespace ContentSecurity

namespace Written

open Json

/-- The members of a site's policies that have been read so far. -/
structure SiteMembers where
  enforced : Option DirectiveValues
  reported : Option DirectiveValues
  reach : Option RemovalReach

def SiteMembers.toSitePolicies (members : SiteMembers) : SitePolicies :=
  ⟨members.enforced.getD ∅, members.reported.getD ∅, members.reach.getD .ownScope⟩

/-- Reads the name of a reach, of which the opening quote has been read. -/
def readReachName : Reader RemovalReach := fun input => do
  let (name, rest) ← quoted true input
  match RemovalReach.ofName? (String.ofList name) with
  | some reach => .ok (reach, rest)
  | none => .error .mismatched

/-- Reads the value `null`. -/
def readNull : Reader Unit := fun input =>
  match dropBlanks input with
  | 'n' :: rest => word "ull".toList rest
  | input => refuse input

/-- Reads a reach: its name, or an object with the name as its one key and the value `null`. What does
not begin with a quote is no key, whatever value it would be elsewhere. -/
def readReach (depth : Nat) : Reader RemovalReach := fun input =>
  match dropBlanks input with
  | [] => .error .truncated
  | '"' :: rest => readReachName rest
  | '\x7b' :: rest =>
    if depth = 0 then .error .malformed
    else do
      let (_, rest) ← mark '"' rest
      let (reach, rest) ← readReachName rest
      let (_, rest) ← memberValue readNull rest
      let (_, rest) ← mark '\x7d' rest
      .ok (reach, rest)
  | _ => .error .malformed

/-- Reads a member of a site's policies. Each may come once. -/
def siteMember (depth : Nat) (key : String) (members : SiteMembers) : Reader SiteMembers :=
  fun input =>
    if key = "enforce" ∧ members.enforced.isNone then do
      let (enforced, rest) ← memberValue (readDirectiveValues depth) input
      .ok ({ members with enforced := some enforced }, rest)
    else if key = "report-only" ∧ members.reported.isNone then do
      let (reported, rest) ← memberValue (readDirectiveValues depth) input
      .ok ({ members with reported := some reported }, rest)
    else if key = "removal-mode" ∧ members.reach.isNone then do
      let (reach, rest) ← memberValue (readReach depth) input
      .ok ({ members with reach := some reach }, rest)
    else .error .mismatched

/-- Reads the three parts as a list, of which the last ones may be missing. -/
def siteList (depth : Nat) : Reader SiteMembers := fun input => do
  let (enforced, rest) ← element? (readDirectiveValues depth) true input
  let (reported, rest) ← element? (readDirectiveValues depth) false rest
  let (reach, rest) ← element? (readReach depth) false rest
  let (_, rest) ← mark ']' rest
  .ok (⟨enforced, reported, reach⟩, rest)

def readSitePolicies : Reader SitePolicies := fun input => do
  let depth := deepest - 1
  let (members, rest) ←
    match dropBlanks input with
    | '\x7b' :: rest => object true (siteMember depth) ⟨none, none, none⟩ rest
    | '[' :: rest => siteList depth rest
    | input => refuse input
  .ok (members.toSitePolicies, rest)

end Written

namespace SitePolicies

def parse (text : String) : Except Refusal SitePolicies :=
  (Json.readAll Written.readSitePolicies text).mapError .json

def render (site : SitePolicies) : String :=
  String.ofList (Json.writeObject [
    ("enforce", Written.writeDirectiveValues site.enforced),
    ("report-only", Written.writeDirectiveValues site.reported),
    ("removal-mode", Json.quote site.reach.name)])

/-- Reads the policies of a site from the bytes of a file, or from the lack of one. -/
def ofFile : Option ByteArray → Except Refusal SitePolicies
  | none => .error (.file .notFound)
  | some bytes =>
    match String.fromUTF8? bytes with
    | none => .error (.file .notText)
    | some text => parse text

end SitePolicies

end ContentSecurity
