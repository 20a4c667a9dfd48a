import ContentSecurity.Exchange
import ContentSecurity.Proofs.Header.Renderings
import ContentSecurity.Proofs.Header.UserAgent
import ContentSecurity.Proofs.Store.InPlace
import Mathlib.Data.List.Basic

/-!
What the pass makes of a response. The names in the dialect of the first token of the user agent get the
policies that have directives, each alone under its name, and every other name keeps what the service inside
gave it. The policies are those that the steps of what has been recorded leave behind on a copy of the base.
All that can be refused has been done by the time the first header is put in place, so a request that fails
leaves the response of the service without any header of ours.
-/
namespace ContentSecurity

/-- The name for one of the policies. -/
def HeaderNames.name (names : HeaderNames) : Disposition → String
  | .enforce => names.enforced
  | .report => names.reported

/-- No dialect shares a name with another, or has one name for both policies. -/
theorem HeaderDialect.name_names_eq_iff (dialect other : HeaderDialect)
    (disposition meant : Disposition) :
    dialect.names.name disposition = other.names.name meant ↔
      dialect = other ∧ disposition = meant := by
  cases dialect <;> cases other <;> cases disposition <;> cases meant <;>
    simp [names, HeaderNames.name]

/-! ## Values under a name -/

namespace Response

def valuesOf (response : Response) (name : String) : List FieldValue :=
  response.headers.filterMap fun header => if header.1 = name then some header.2 else none

/-- The new value takes the place of all that the name had, and no other name is touched. -/
theorem valuesOf_setHeader (response : Response) (name other : String) (value : FieldValue) :
    (response.setHeader name value).valuesOf other =
      if name = other then [value] else response.valuesOf other := by
  have hkept : (response.headers.filter (fun header => header.1 != name)).filterMap
        (fun header => if header.1 = other then some header.2 else none) =
      if name = other then [] else response.valuesOf other := by
    rw [List.filterMap_filter]
    split
    · next h =>
      subst h
      refine List.filterMap_eq_nil_iff.2 fun header _ => ?_
      by_cases hn : header.1 = name <;> simp [hn]
    · next h =>
      refine List.filterMap_congr fun header _ => ?_
      by_cases ho : header.1 = other
      · have hne : header.1 ≠ name := fun hn => h (hn.symm.trans ho)
        simp [hne]
      · simp [ho]
  rw [valuesOf, setHeader, List.filterMap_append, hkept]
  by_cases h : name = other <;> simp [h]

@[simp] theorem status_setHeaders (response : Response) (headers : List (String × FieldValue)) :
    (response.setHeaders headers).status = response.status := by
  induction headers generalizing response with
  | nil => rfl
  | cons header rest ih => exact ih (response.setHeader header.1 header.2)

/-- As long as no name comes twice, each header that is set stands alone under its name. -/
theorem valuesOf_setHeaders (response : Response) {headers : List (String × FieldValue)}
    (h : (headers.map Prod.fst).Nodup) (name : String) :
    (response.setHeaders headers).valuesOf name =
      match lookupName name headers with
      | some value => [value]
      | none => response.valuesOf name := by
  induction headers generalizing response with
  | nil => rfl
  | cons header rest ih =>
    obtain ⟨first, value⟩ := header
    obtain ⟨hfirst, hrest⟩ := List.nodup_cons.1 h
    have hih := ih (response.setHeader first value) hrest
    -- The first header would be lost to a later one of its name, but there is none.
    rw [valuesOf_setHeader] at hih
    refine hih.trans ?_
    rw [lookupName]
    by_cases hn : first = name
    · subst hn
      rw [(lookupName_eq_none_iff first rest).2 hfirst, if_pos rfl, if_pos rfl]
    · rw [if_neg hn, if_neg hn]

end Response

/-! ## The headers of a store -/

/-- The headers of two policies that have been written, the enforced one first. -/
def HeaderNames.headers (names : HeaderNames) (entries : Disposition → Option FieldValue) :
    List (String × FieldValue) :=
  (entries .enforce).toList.map (names.enforced, ·) ++
    (entries .report).toList.map (names.reported, ·)

section Entries

variable (dialect : HeaderDialect) (entries : Disposition → Option FieldValue)

theorem HeaderDialect.enforced_ne_reported : dialect.names.enforced ≠ dialect.names.reported := by
  intro h
  exact Disposition.noConfusion ((dialect.name_names_eq_iff dialect .enforce .report).1 h).2

theorem HeaderNames.nodup_headers : ((dialect.names.headers entries).map Prod.fst).Nodup := by
  rw [headers]
  cases entries .enforce <;> cases entries .report <;> simp [dialect.enforced_ne_reported]

theorem HeaderNames.lookupName_headers (disposition : Disposition) :
    lookupName (dialect.names.name disposition) (dialect.names.headers entries) =
      entries disposition := by
  have hne := dialect.enforced_ne_reported
  rw [headers]
  cases he : entries .enforce <;> cases hr : entries .report <;> cases disposition <;>
    simp [name, lookupName, he, hr, hne, hne.symm]

theorem HeaderNames.lookupName_headers_of_ne {other : String}
    (h : ∀ disposition, dialect.names.name disposition ≠ other) :
    lookupName other (dialect.names.headers entries) = none := by
  have he : dialect.names.enforced ≠ other := h .enforce
  have hr : dialect.names.reported ≠ other := h .report
  rw [headers]
  cases entries .enforce <;> cases entries .report <;> simp [lookupName, he, hr]

end Entries

namespace Deployment

def countingBy (deployment : Deployment) (change : Counters → Counters) : Deployment :=
  { deployment with counters := change deployment.counters }

/-- Only the base is amended, whatever has been counted. -/
theorem amended_eq (deployment : Deployment) (recorded : Option Amendments) :
    deployment.amended recorded = recorded.elim (.ok deployment.base) deployment.base.apply := by
  cases recorded <;> rfl

/-- The base with what has been recorded applied to it, if that is not refused and both policies can be
written. -/
def written (deployment : Deployment) (recorded : Option Amendments) : Except Refusal Store := do
  let store ← deployment.amended recorded
  let _ ← store.enforced.fieldValue
  let _ ← store.reported.fieldValue
  return store

/-- The headers that are put in place for a request. -/
def headersFor (deployment : Deployment) (recorded : Option Amendments) (names : HeaderNames) :
    Except Refusal (List (String × FieldValue)) := do
  let store ← deployment.amended recorded
  store.headers names

/-- There are headers as soon as both policies can be written: one for each policy that has
directives. -/
theorem headersFor_eq (deployment : Deployment) (recorded : Option Amendments)
    (names : HeaderNames) :
    match deployment.written recorded with
    | .error refusal => deployment.headersFor recorded names = .error refusal
    | .ok store => ∃ entries : Disposition → Option FieldValue,
        (∀ disposition, (store.policy disposition).fieldValue = .ok (entries disposition)) ∧
          deployment.headersFor recorded names = .ok (names.headers entries) := by
  simp only [written, headersFor, bind, Except.bind]
  cases deployment.amended recorded with
  | error refusal => rfl
  | ok store =>
    simp only [Store.headers, bind, Except.bind]
    cases he : store.enforced.fieldValue with
    | error refusal => rfl
    | ok enforced =>
      cases hr : store.reported.fieldValue with
      | error refusal => rfl
      | ok reported =>
        refine ⟨fun | .enforce => enforced | .report => reported, ?_, rfl⟩
        rintro (_ | _)
        · exact he
        · exact hr

/-- The headers decide how a pass ends once the service inside has answered. -/
theorem result_pass (deployment : Deployment) (exchange : Exchange) :
    (deployment.pass exchange).result =
      match exchange.answer with
      | .error error => .error (.service error)
      | .ok response =>
        match deployment.headersFor exchange.recorded exchange.names with
        | .error refusal => .error (.policy refusal)
        | .ok headers => .ok (response.setHeaders headers) := by
  simp only [pass, compile, headersFor, bind, Except.bind]
  cases exchange.answer with
  | error error => rfl
  | ok response =>
    simp only [amended_eq]
    cases exchange.recorded.elim (.ok deployment.base) deployment.base.apply with
    | error refusal => rfl
    | ok store =>
      simp only
      cases store.headers exchange.names <;> rfl

theorem base_pass (deployment : Deployment) (exchange : Exchange) :
    (deployment.pass exchange).after.base = deployment.base := by
  simp only [pass, compile]
  cases exchange.answer with
  | error error => rfl
  | ok response =>
    simp only
    split
    · rfl
    · split <;> rfl

end Deployment

/-! ## What is asked for -/

/-- The dialect for a request: that of the first token of its user agent, and the standard where there is
no token. A user agent that is not in visible characters counts as none. -/
inductive HeaderDialect.Suits : Option FieldValue → HeaderDialect → Prop where
  | token {value : FieldValue} {agent : String} {token : BrowserToken} (ha : value.Shows agent)
      (ht : token.IsFirst agent.toList) : Suits (some value) token.dialect
  | noToken {value : FieldValue} {agent : String} (ha : value.Shows agent)
      (ht : ∀ (token : BrowserToken) (before : List Char),
        ¬ token.StandsBehind before agent.toList) : Suits (some value) .standard
  | unreadable {value : FieldValue} (ha : ∀ agent, ¬ value.Shows agent) :
      Suits (some value) .standard
  | absent : Suits none .standard

theorem HeaderDialect.suits_iff (userAgent : Option FieldValue) (dialect : HeaderDialect) :
    Suits userAgent dialect ↔ dialect = ofUserAgent (userAgent.bind FieldValue.text?) := by
  have hnone {value : FieldValue} (ha : ∀ agent, ¬ value.Shows agent) : value.text? = none :=
    Option.eq_none_iff_forall_ne_some.2 fun agent h => ha agent ((value.text?_eq_some_iff _).1 h)
  constructor
  · intro h
    cases h with
    | token ha ht =>
      rw [Option.bind_some, (FieldValue.text?_eq_some_iff _ _).2 ha, ofUserAgent_of_isFirst ht]
    | noToken ha ht =>
      rw [Option.bind_some, (FieldValue.text?_eq_some_iff _ _).2 ha, ofUserAgent_of_no_token ht]
    | unreadable ha =>
      rw [Option.bind_some, hnone ha]
      rfl
    | absent => rfl
  · rintro rfl
    cases userAgent with
    | none => exact .absent
    | some value =>
      rw [Option.bind_some]
      cases ha : value.text? with
      | none =>
        refine .unreadable fun agent hs => ?_
        rw [(value.text?_eq_some_iff agent).2 hs] at ha
        cases ha
      | some agent =>
        have hs := (value.text?_eq_some_iff agent).1 ha
        cases hf : BrowserToken.first? agent.toList with
        | none =>
          have ht := (BrowserToken.first?_eq_none_iff _).1 hf
          rw [ofUserAgent_of_no_token ht]
          exact .noToken hs ht
        | some token =>
          have ht := (token.first?_eq_some_iff _).1 hf
          rw [ofUserAgent_of_isFirst ht]
          exact .token hs ht

namespace Store

/-- Carries out the steps of what has been recorded, if anything has, on a copy of the store. -/
def copied (store : Store) (recorded : Option Amendments) : EStateM.Result Refusal Store Unit :=
  (forM (recorded.elim [] Amendments.steps) InPlace.step).run store

/-- What is asked of the base before the first header: that no step of what has been recorded is refused,
and then that both policies can be printed. -/
inductive Prepares (base : Store) (recorded : Option Amendments) : Except Refusal Store → Prop where
  | ready {store : Store} (hs : base.copied recorded = .ok () store)
      (hp : ∀ disposition, (store.policy disposition).Printable) : Prepares base recorded (.ok store)
  | refused {refusal : Refusal}
      (hm : InPlace.MetFirst base (recorded.elim [] Amendments.steps) refusal) :
      Prepares base recorded (.error refusal)
  | unprintable {store : Store} {disposition : Disposition} (hs : base.copied recorded = .ok () store)
      (hp : ¬ (store.policy disposition).Printable) :
      Prepares base recorded (.error Policy.unprintable)

end Store

namespace Deployment

theorem amended_eq_outcome (deployment : Deployment) (recorded : Option Amendments) :
    deployment.amended recorded = InPlace.outcome (deployment.base.copied recorded) := by
  cases recorded with
  | none => rfl
  | some amendments =>
    rw [Store.copied, Option.elim_some, InPlace.outcome_steps, ← InPlace.edits_eq]
    rfl

theorem written_of_not_printable (deployment : Deployment) {recorded : Option Amendments}
    {store : Store} (hs : deployment.base.copied recorded = .ok () store)
    {disposition : Disposition} (hp : ¬ (store.policy disposition).Printable) :
    deployment.written recorded = .error Policy.unprintable := by
  rw [written, amended_eq_outcome, hs]
  by_cases he : (store.policy .enforce).Printable
  · cases disposition with
    | enforce => exact absurd he hp
    | report =>
      obtain ⟨entry, hentry⟩ : ∃ entry, store.enforced.fieldValue = .ok entry :=
        Policy.exists_fieldValue_of_printable he
      have hreport : store.reported.fieldValue = .error Policy.unprintable :=
        Policy.fieldValue_of_not_printable hp
      simp only [InPlace.outcome, bind, Except.bind, hentry, hreport]
  · have henforce : store.enforced.fieldValue = .error Policy.unprintable :=
      Policy.fieldValue_of_not_printable he
    simp only [InPlace.outcome, bind, Except.bind, henforce]

theorem eq_written_of_prepares (deployment : Deployment) {recorded : Option Amendments}
    {prepared : Except Refusal Store} (h : deployment.base.Prepares recorded prepared) :
    prepared = deployment.written recorded := by
  cases h with
  | @ready store hs hp =>
    obtain ⟨enforced, he⟩ : ∃ entry, store.enforced.fieldValue = .ok entry :=
      Policy.exists_fieldValue_of_printable (hp .enforce)
    obtain ⟨reported, hr⟩ : ∃ entry, store.reported.fieldValue = .ok entry :=
      Policy.exists_fieldValue_of_printable (hp .report)
    rw [written, amended_eq_outcome, hs]
    simp only [InPlace.outcome, bind, Except.bind, he, hr]
    rfl
  | refused hm =>
    obtain ⟨behind, hs⟩ := (InPlace.run_forM_step_eq_error_iff _ _ _).2 hm
    rw [written, amended_eq_outcome, Store.copied, hs]
    rfl
  | unprintable hs hp => exact (deployment.written_of_not_printable hs hp).symm

/-- The preparation ends in one way only, which is that of the pass. -/
theorem prepares_iff (deployment : Deployment) (recorded : Option Amendments)
    (prepared : Except Refusal Store) :
    deployment.base.Prepares recorded prepared ↔ prepared = deployment.written recorded := by
  refine ⟨deployment.eq_written_of_prepares, ?_⟩
  rintro rfl
  have hsome : ∃ prepared, deployment.base.Prepares recorded prepared := by
    cases hs : deployment.base.copied recorded with
    | error refusal behind =>
      exact ⟨_, .refused ((InPlace.run_forM_step_eq_error_iff _ _ _).1 ⟨behind, hs⟩)⟩
    | ok _ store =>
      by_cases hp : ∀ disposition, (store.policy disposition).Printable
      · exact ⟨_, .ready hs hp⟩
      · obtain ⟨disposition, hd⟩ := not_forall.1 hp
        exact ⟨_, .unprintable hs hd⟩
  obtain ⟨prepared, h⟩ := hsome
  exact deployment.eq_written_of_prepares h ▸ h

end Deployment

/-- The response that is asked for, given that of the service inside. Each policy with directives stands
alone under the name that the dialect has for it, and all other names have what they had. -/
structure Response.Completes (final response : Response) (dialect : HeaderDialect) (store : Store) :
    Prop where
  status : final.status = response.status
  policies : ∀ disposition, (store.policy disposition).isEmpty = false →
    ∃ value, final.valuesOf (dialect.names.name disposition) = [value] ∧
      value.bytes = (store.policy disposition).render.toUTF8
  empties : ∀ disposition, (store.policy disposition).isEmpty = true →
    final.valuesOf (dialect.names.name disposition) =
      response.valuesOf (dialect.names.name disposition)
  dialects : ∀ other, other ≠ dialect → ∀ disposition,
    final.valuesOf (other.names.name disposition) =
      response.valuesOf (other.names.name disposition)
  others : ∀ name, (∀ disposition, dialect.names.name disposition ≠ name) →
    final.valuesOf name = response.valuesOf name

theorem Response.completes_setHeaders (response : Response) (dialect : HeaderDialect) {store : Store}
    {entries : Disposition → Option FieldValue}
    (h : ∀ disposition, (store.policy disposition).fieldValue = .ok (entries disposition)) :
    (response.setHeaders (dialect.names.headers entries)).Completes response dialect store := by
  have hvalues := response.valuesOf_setHeaders (HeaderNames.nodup_headers dialect entries)
  have hother {name : String} (hname : ∀ disposition, dialect.names.name disposition ≠ name) :
      (response.setHeaders (dialect.names.headers entries)).valuesOf name =
        response.valuesOf name := by
    rw [hvalues, HeaderNames.lookupName_headers_of_ne dialect entries hname]
  refine ⟨response.status_setHeaders _, ?_, ?_, ?_, fun name hname => hother hname⟩
  · intro disposition hfull
    have hentry := (Policy.fieldValue_eq_ok_iff _ _).1 (h disposition)
    rw [hfull, if_neg Bool.false_ne_true] at hentry
    obtain ⟨value, he, hbytes⟩ := hentry
    exact ⟨value, by rw [hvalues, HeaderNames.lookupName_headers, he], hbytes⟩
  · intro disposition hempty
    have hentry := (Policy.fieldValue_eq_ok_iff _ _).1 (h disposition)
    rw [hempty, if_pos rfl] at hentry
    rw [hvalues, HeaderNames.lookupName_headers, hentry]
  · intro other hne disposition
    refine hother fun meant hm => hne ?_
    exact ((dialect.name_names_eq_iff other meant disposition).1 hm).1.symm

/-! ## The pass step by step -/

/-- What a pass works on once the service inside has answered. -/
structure Passing where
  deployment : Deployment
  response : Response

namespace Passing

/-- Something that is done during a pass, in place. Where it is refused, what it has written by then is
left behind. -/
abbrev Work := EStateM Refusal Passing

def counting (passing : Passing) (change : Counters → Counters) : Passing :=
  { passing with deployment := passing.deployment.countingBy change }

def count (change : Counters → Counters) : Work Unit :=
  modify (·.counting change)

/-- Makes the store for the request. -/
def compile (recorded : Option Amendments) : Work Store := do
  count fun counters => { counters with compiles := counters.compiles + 1 }
  let passing ← get
  match passing.deployment.base.copied recorded with
  | .ok _ store => return store
  | .error refusal _ =>
    count fun counters => { counters with failures := counters.failures + 1 }
    throw refusal

/-- Puts one header in place and counts it. -/
def put (header : String × FieldValue) : Work Unit := do
  modify fun passing => { passing with response := passing.response.setHeader header.1 header.2 }
  count fun counters => { counters with headers := counters.headers + 1 }

def complete (names : HeaderNames) (recorded : Option Amendments) : Work Unit := do
  let store ← compile recorded
  let headers ← ofExcept (store.headers names)
  forM headers put
  count fun counters => { counters with timed := counters.timed + 1 }

theorem run_compile (recorded : Option Amendments) (passing : Passing) :
    (compile recorded).run passing =
      match passing.deployment.amended recorded with
      | .ok store => .ok store (passing.counting (·.countCompile true))
      | .error refusal => .error refusal (passing.counting (·.countCompile false)) := by
  simp only [compile, EStateM.run_bind, count, EStateM.run_modify, EStateM.run_get, counting,
    Deployment.countingBy, Deployment.amended_eq_outcome]
  cases passing.deployment.base.copied recorded <;> rfl

theorem run_forM_put (headers : List (String × FieldValue)) (passing : Passing) :
    (forM headers put).run passing =
      .ok () ⟨passing.deployment.countingBy fun counters =>
          { counters with headers := counters.headers + headers.length },
        passing.response.setHeaders headers⟩ := by
  induction headers generalizing passing with
  | nil => rfl
  | cons header rest ih =>
    have hput : (put header).run passing =
        .ok () ⟨passing.deployment.countingBy fun counters =>
            { counters with headers := counters.headers + 1 },
          passing.response.setHeader header.1 header.2⟩ := rfl
    rw [List.forM_cons, EStateM.run_bind, hput]
    simp only [ih, Deployment.countingBy, List.length_cons, Nat.add_assoc, Nat.add_comm 1]
    rfl

/-- Up to a refusal nothing has been put in place. -/
theorem run_complete (names : HeaderNames) (recorded : Option Amendments) (passing : Passing) :
    (complete names recorded).run passing =
      match passing.deployment.amended recorded with
      | .error refusal => .error refusal (passing.counting (·.countCompile false))
      | .ok store =>
        match store.headers names with
        | .error refusal => .error refusal (passing.counting (·.countCompile true))
        | .ok headers =>
          .ok () ⟨passing.deployment.countingBy
              fun counters => (counters.countCompile true).countPass headers.length,
            passing.response.setHeaders headers⟩ := by
  rw [complete, EStateM.run_bind, run_compile]
  cases passing.deployment.amended recorded with
  | error refusal => rfl
  | ok store =>
    simp only [EStateM.run_bind]
    cases store.headers names with
    | error refusal => rfl
    | ok headers =>
      have hheaders (state : Passing) :
          (ofExcept (.ok headers) : Work _).run state = .ok headers state := rfl
      simp only [hheaders, run_forM_put]
      rfl

/-- The pass leaves what these steps leave, also when they are refused. Then no header has been
counted. -/
theorem run_complete_eq_pass (deployment : Deployment) (exchange : Exchange) (response : Response)
    (h : exchange.answer = .ok response) :
    match deployment.headersFor exchange.recorded exchange.names with
    | .ok headers =>
      (complete exchange.names exchange.recorded).run
          ⟨deployment.countingBy Counters.countRequest, response⟩ =
        .ok () ⟨(deployment.pass exchange).after, response.setHeaders headers⟩
    | .error refusal =>
      (complete exchange.names exchange.recorded).run
          ⟨deployment.countingBy Counters.countRequest, response⟩ =
        .error refusal ⟨(deployment.pass exchange).after, response⟩ ∧
      (deployment.pass exchange).after.counters.headers = deployment.counters.headers := by
  rw [run_complete]
  simp only [Deployment.pass, Deployment.compile, Deployment.headersFor, bind, Except.bind, h,
    Deployment.countingBy, Deployment.amended_eq]
  cases exchange.recorded.elim (.ok deployment.base) deployment.base.apply with
  | error refusal => exact ⟨rfl, rfl⟩
  | ok store =>
    simp only
    cases store.headers exchange.names with
    | error refusal => exact ⟨rfl, rfl⟩
    | ok headers => rfl

end Passing

/-- If no step of what has been recorded is refused on a copy of the base, and both policies can then be
printed, the request ends with the response of the service completed by the headers of the policies, in the
dialect of the first token of the user agent. If not, it ends in the refusal that is met first, and until
then no header has been put in place or counted. -/
theorem pass_completes_response (deployment : Deployment) (userAgent : Option FieldValue)
    (recorded : Option Amendments) (response : Response) :
    ∃ dialect prepared,
      (∀ other, HeaderDialect.Suits userAgent other ↔ other = dialect) ∧
      (∀ other, deployment.base.Prepares recorded other ↔ other = prepared) ∧
      let outcome := deployment.pass ⟨userAgent, recorded, .ok response⟩
      let steps := (Passing.complete dialect.names recorded).run
        ⟨deployment.countingBy Counters.countRequest, response⟩
      match prepared with
      | .ok store => ∃ final, outcome.result = .ok final ∧ final.Completes response dialect store ∧
          steps = .ok () ⟨outcome.after, final⟩
      | .error refusal => outcome.result = .error (.policy refusal) ∧
          steps = .error refusal ⟨outcome.after, response⟩ ∧
          outcome.after.counters.headers = deployment.counters.headers := by
  let exchange : Exchange := ⟨userAgent, recorded, .ok response⟩
  let dialect := HeaderDialect.ofUserAgent (userAgent.bind FieldValue.text?)
  refine ⟨dialect, deployment.written recorded, HeaderDialect.suits_iff userAgent,
    deployment.prepares_iff recorded, ?_⟩
  have hheaders := deployment.headersFor_eq recorded dialect.names
  have hresult := deployment.result_pass exchange
  have hsteps := Passing.run_complete_eq_pass deployment exchange response rfl
  cases hw : deployment.written recorded with
  | error refusal =>
    rw [hw] at hheaders
    have hfor : deployment.headersFor exchange.recorded exchange.names = .error refusal := hheaders
    rw [hfor] at hresult hsteps
    exact ⟨hresult, hsteps⟩
  | ok store =>
    rw [hw] at hheaders
    obtain ⟨entries, hentries, hfor⟩ := hheaders
    have hfor : deployment.headersFor exchange.recorded exchange.names =
        .ok (dialect.names.headers entries) := hfor
    rw [hfor] at hresult hsteps
    exact ⟨_, hresult, response.completes_setHeaders dialect hentries, hsteps⟩

end ContentSecurity
