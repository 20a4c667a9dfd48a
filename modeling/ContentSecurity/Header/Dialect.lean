import ContentSecurity.Header.Browser

/-!
The names under which browsers have known the policy headers, and the names that suit a given user
agent.
-/
namespace ContentSecurity

/-- The header names of the two policies. -/
structure HeaderNames where
  enforced : String
  reported : String
  deriving DecidableEq, Repr

inductive HeaderDialect where
  | standard | webKit | mozilla
  deriving DecidableEq, Repr

namespace HeaderDialect

def names : HeaderDialect → HeaderNames
  | standard => ⟨"content-security-policy", "content-security-policy-report-only"⟩
  | webKit => ⟨"x-webkit-csp", "x-webkit-csp-report-only"⟩
  | mozilla => ⟨"x-content-security-policy", "x-content-security-policy-report-only"⟩

/-- Versions of a browser that know the header of its vendor only. -/
structure VersionRange where
  browser : Browser
  least : Nat
  most : Nat
  dialect : HeaderDialect

def versionRanges : List VersionRange := [
  ⟨.chrome, 14, 24, webKit⟩,
  ⟨.safari, 6, BrowserToken.largestVersion, webKit⟩,
  ⟨.firefox, 4, 22, mozilla⟩,
  ⟨.explorer, 10, 19, mozilla⟩]

def VersionRange.covers (range : VersionRange) (token : BrowserToken) : Bool :=
  range.browser == token.browser && range.least ≤ token.version && token.version ≤ range.most

def ofToken (token : BrowserToken) : HeaderDialect :=
  match versionRanges.find? (·.covers token) with
  | some range => range.dialect
  | none => standard

/-- The dialect of a user agent. One that names no browser is taken to know the standard. -/
def ofUserAgent (userAgent : Option String) : HeaderDialect :=
  match userAgent.bind fun text => BrowserToken.first? text.toList with
  | some token => ofToken token
  | none => standard

end HeaderDialect

namespace HeaderNames

instance : Inhabited HeaderNames := ⟨HeaderDialect.standard.names⟩

/-- The header names that suit a user agent. -/
def suiting (userAgent : Option String) : HeaderNames :=
  (HeaderDialect.ofUserAgent userAgent).names

end HeaderNames

end ContentSecurity
