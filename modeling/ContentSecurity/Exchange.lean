import ContentSecurity.Deployment

/-!
The pass over a request. The service inside answers first; then the store is compiled with the
amendments that were recorded for the request, and its policies go into the headers of the answer
under the names that suit the user agent. If anything fails the request fails, and no policy
header is written.
-/
namespace ContentSecurity

structure Response where
  status : Nat
  headers : List (String × FieldValue)

namespace Response

/-- Gives a name one value, in place of all that it had. -/
def setHeader (response : Response) (name : String) (value : FieldValue) : Response :=
  { response with
    headers := response.headers.filter (fun header => header.1 != name) ++ [(name, value)] }

def setHeaders (response : Response) (headers : List (String × FieldValue)) : Response :=
  headers.foldl (fun response header => response.setHeader header.1 header.2) response

end Response

/-- A failure of the service inside. -/
structure ServiceError where
  status : Nat
  text : String
  deriving DecidableEq, Repr

/-- Why a request fails. -/
inductive PassError where
  | service (error : ServiceError)
  | policy (refusal : Refusal)
  deriving DecidableEq, Repr

def PassError.status : PassError → Nat
  | service error => error.status
  | policy refusal => refusal.status

/-- A request as the pass finds it once the service inside is done. -/
structure Exchange where
  userAgent : Option FieldValue
  recorded : Option Amendments
  answer : Except ServiceError Response

namespace Exchange

/-- The header names for the request. A user agent that cannot be read as text is none. -/
def names (exchange : Exchange) : HeaderNames :=
  HeaderNames.suiting (exchange.userAgent.bind FieldValue.text?)

end Exchange

/-- Passes over one request. -/
def Deployment.pass (deployment : Deployment) (exchange : Exchange) :
    Outcome (Except PassError Response) :=
  let begun := { deployment with counters := deployment.counters.countRequest }
  match exchange.answer with
  | .error error => ⟨.error (.service error), begun, []⟩
  | .ok response =>
    let compiled := begun.compile exchange.recorded
    match compiled.result with
    | .error refusal =>
      ⟨.error (.policy refusal), compiled.after, compiled.events ++ [.compilationFailed refusal]⟩
    | .ok store =>
      match store.headers exchange.names with
      | .error refusal => ⟨.error (.policy refusal), compiled.after, compiled.events⟩
      | .ok headers =>
        let counters := compiled.after.counters.countPass headers.length
        ⟨.ok (response.setHeaders headers), { compiled.after with counters }, compiled.events⟩

end ContentSecurity
