import ContentSecurity.Deployment

/-!
The check of a policy file before it is deployed: which headers would a browser be sent?
-/
namespace ContentSecurity.CommandLine

/-- What a run of the command line leaves: the exit code and the lines on both streams. -/
structure Report where
  code : Nat
  out : List String
  err : List String
  deriving DecidableEq, Repr

/-- What the arguments ask for. -/
inductive Request where
  | usage
  | check (path : String) (userAgent : Option String)
  deriving DecidableEq, Repr

/-- The first argument is the path of the file, the second the user agent; others do not matter. -/
def Request.ofArguments : List String → Request
  | [] => usage
  | path :: rest => check path rest.head?

def usage : Report :=
  ⟨2, [], ["usage: actix_web_csp_compiler <policy.json> [user-agent]"]⟩

/-- The line for a header. A value that cannot be read as text is left out. -/
def headerLine (header : String × FieldValue) : String :=
  header.1 ++ ": " ++ header.2.text?.getD ""

/-- The headers that a file would have sent. -/
def fileHeaders (contents : Option ByteArray) (userAgent : Option String) :
    Except Refusal (List (String × FieldValue)) := do
  let site ← SitePolicies.ofFile contents
  let deployment ← Deployment.start site .csp1
  deployment.base.headers (.suiting userAgent)

/-- Reports on a file of which the contents have been read, if there was a file. A fault of the file or of
its text is reported in the words that its reader has for it. -/
def check (path : String) (contents : Option ByteArray) (userAgent : Option String)
    (wording : Wording := {}) : Report :=
  match fileHeaders contents userAgent with
  | .error refusal => ⟨1, [], [path ++ ": " ++ refusal.message wording]⟩
  | .ok [] => ⟨0, [path ++ ": policy is empty, no header would be sent"], []⟩
  | .ok headers => ⟨0, headers.map headerLine, []⟩

end ContentSecurity.CommandLine
