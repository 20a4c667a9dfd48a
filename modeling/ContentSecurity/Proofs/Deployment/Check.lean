import ContentSecurity.CommandLine
import ContentSecurity.Proofs.Deployment.Headers
import ContentSecurity.Proofs.Message
import ContentSecurity.Proofs.Written.Documents

/-!
The check of a policy file against the deployment that is started with it. The file passes just when the
deployment starts, and what is printed then are the headers that every response gets for a request with that
user agent for which nothing has been recorded. What is printed for a file that does not pass tells why.
-/
namespace ContentSecurity

/-! ## Headers that are attached -/

/-- The response with headers attached to it: they come behind those that it had under other names. -/
structure Response.Attaches (final response : Response) (headers : List (String × FieldValue)) :
    Prop where
  status : final.status = response.status
  headers : final.headers =
    response.headers.filter (fun header => header.1 ∉ headers.map Prod.fst) ++ headers

theorem Response.headers_setHeaders (response : Response) {headers : List (String × FieldValue)}
    (h : (headers.map Prod.fst).Nodup) :
    (response.setHeaders headers).headers =
      response.headers.filter (fun header => header.1 ∉ headers.map Prod.fst) ++ headers := by
  induction headers generalizing response with
  | nil => simp [setHeaders]
  | cons header rest ih =>
    obtain ⟨hfirst, hrest⟩ := List.nodup_cons.1 h
    -- The first header stays, since no later one has its name.
    have hstays : ([header] : List (String × FieldValue)).filter
        (fun header => header.1 ∉ rest.map Prod.fst) = [header] := by
      rw [List.filter_eq_self]
      simpa using hfirst
    have hih := ih (response.setHeader header.1 header.2) hrest
    rw [setHeader, List.filter_append, hstays, List.filter_filter] at hih
    refine hih.trans ?_
    rw [List.append_assoc, List.singleton_append]
    congr 1
    refine List.filter_congr fun other _ => ?_
    rw [Bool.eq_iff_iff]
    simp only [Bool.and_eq_true, decide_eq_true_eq, bne_iff_ne, List.map_cons, List.mem_cons, not_or]
    exact and_comm

theorem Response.attaches_setHeaders (response : Response) {headers : List (String × FieldValue)}
    (h : (headers.map Prod.fst).Nodup) : (response.setHeaders headers).Attaches response headers :=
  ⟨response.status_setHeaders headers, response.headers_setHeaders h⟩

/-- A user agent in visible characters can be sent, and is read as it was sent. -/
theorem FieldValue.sent_of_visible {userAgent : Option String}
    (h : ∀ agent ∈ userAgent, agent.toUTF8.data.all isVisibleByte = true) :
    (userAgent.bind ofString?).map bytes = userAgent.map String.toUTF8 ∧
      (userAgent.bind ofString?).bind text? = userAgent := by
  cases userAgent with
  | none => exact ⟨rfl, rfl⟩
  | some agent =>
    obtain ⟨value, hvalue, hbytes, htext⟩ := ofString?_of_visible (h agent rfl)
    rw [Option.bind_some, hvalue]
    exact ⟨congrArg some hbytes, htext⟩

/-! ## Deployments from texts -/

namespace Deployment

/-- The deployment of policies that are still a text, with the directives of the first standard. -/
def ofText (text : String) : Except Refusal Deployment := do
  let site ← SitePolicies.parse text
  start site .csp1

theorem reachable_of_ofText {text : String} {deployment : Deployment}
    (h : ofText text = .ok deployment) : deployment.base.Reachable .csp1 := by
  rw [ofText] at h
  cases hp : SitePolicies.parse text with
  | error refusal =>
    rw [hp] at h
    cases h
  | ok site =>
    rw [hp] at h
    exact SitePolicies.reachable_of_store ((start_eq_ok_iff _ _ _).1 h).1

/-- No deployment starts with a text that cannot be read, or with values that are refused. -/
theorem namesPlainly_of_ofText {text : String} {refusal : Refusal}
    (h : ofText text = .error refusal) : refusal.NamesPlainly := by
  rw [ofText, SitePolicies.parse] at h
  cases hp : Json.readAll Written.readSitePolicies text with
  | error fault =>
    rw [hp] at h
    cases h
    trivial
  | ok site =>
    rw [hp] at h
    cases hs : site.store .csp1 with
    | error met =>
      simp only [Except.mapError, bind, Except.bind, start, hs, Except.map] at h
      cases h
      exact Vocabulary.csp1_namesPlainly.store hs
    | ok store =>
      simp only [Except.mapError, bind, Except.bind, start, hs, Except.map] at h
      cases h

/-- As long as nothing is recorded, the headers of the base are put in place. -/
theorem result_pass_of_headers {deployment : Deployment} {exchange : Exchange}
    {headers : List (String × FieldValue)} (hn : exchange.recorded = none)
    (hh : deployment.base.headers exchange.names = .ok headers) :
    (deployment.pass exchange).result = match exchange.answer with
      | .error error => .error (.service error)
      | .ok response => .ok (response.setHeaders headers) := by
  have hfor : deployment.headersFor none exchange.names = .ok headers := hh
  have hresult := deployment.result_pass exchange
  rw [hn, hfor] at hresult
  exact hresult

theorem result_pass_ne_refusal {deployment : Deployment} (h : deployment.base.Reachable .csp1)
    {exchange : Exchange} (hn : exchange.recorded = none) (refusal : Refusal) :
    (deployment.pass exchange).result ≠ .error (.policy refusal) := by
  obtain ⟨_, -, hheaders⟩ := h.headers
  rw [result_pass_of_headers hn (hheaders exchange.names)]
  cases exchange.answer <;> simp

end Deployment

namespace CommandLine

theorem fileHeaders_toUTF8 (text : String) (userAgent : Option String) :
    fileHeaders (some text.toUTF8) userAgent =
      (Deployment.ofText text).bind fun deployment => deployment.base.headers (.suiting userAgent) := by
  simp only [fileHeaders, SitePolicies.ofFile, fromUTF8?_toUTF8, Deployment.ofText, bind, Except.bind]
  cases SitePolicies.parse text <;> rfl

/-- The line that is printed for a file with which no header would be sent. -/
def emptyLine (path : String) : String :=
  path ++ ": policy is empty, no header would be sent"

/-- What is printed for headers: a line for each, in which its name and its text stand in full. -/
def Prints (path : String) (headers : List (String × FieldValue)) (out : List String) : Prop :=
  ∃ texts : List (String × String),
    (headers.map fun (name, value) => (name, value.text?)) =
        (texts.map fun (name, text) => (name, some text)) ∧
      out = if headers = [] then [emptyLine path] else texts.map fun (name, text) => name ++ ": " ++ text

/-- The lines that are printed for headers. -/
def headerLines (path : String) (headers : List (String × FieldValue)) : List String :=
  if headers = [] then [emptyLine path] else headers.map headerLine

theorem check_of_started {text : String} {deployment : Deployment} {userAgent : Option String}
    {headers : List (String × FieldValue)} (hd : Deployment.ofText text = .ok deployment)
    (hh : deployment.base.headers (.suiting userAgent) = .ok headers) (path : String)
    (wording : Wording) :
    check path (some text.toUTF8) userAgent wording = ⟨0, headerLines path headers, []⟩ := by
  have hfile : fileHeaders (some text.toUTF8) userAgent = .ok headers := by
    rw [fileHeaders_toUTF8, hd]
    exact hh
  rw [check, hfile]
  cases headers <;> rfl

theorem check_of_refused {text : String} {refusal : Refusal}
    (h : Deployment.ofText text = .error refusal) (path : String) (userAgent : Option String)
    (wording : Wording) : check path (some text.toUTF8) userAgent wording =
      ⟨1, [], [path ++ ": " ++ refusal.message wording]⟩ := by
  have hfile : fileHeaders (some text.toUTF8) userAgent = .error refusal := by
    rw [fileHeaders_toUTF8, h]
    rfl
  rw [check, hfile]

/-- The rest of the line is what the reader says of a text that ends too early. -/
example (wording : Wording) : check "policy.json" (some "\x7b".toUTF8) none wording =
    ⟨1, [], ["policy.json: Serialization error: " ++ wording.json .truncated]⟩ := by
  have h : Deployment.ofText "\x7b" = .error (.json .truncated) := by decide +kernel
  rw [check_of_refused h]
  rfl

/-- The line for a text that is refused is the same as for another one just when the texts are refused for
the same reason. -/
theorem err_eq_iff_of_refused {text other : String} {refusal refusal' : Refusal}
    (h : Deployment.ofText text = .error refusal) (h' : Deployment.ofText other = .error refusal')
    (path : String) (userAgent userAgent' : Option String) (wording wording' : Wording) :
    (check path (some other.toUTF8) userAgent' wording').err =
        (check path (some text.toUTF8) userAgent wording).err ↔
      refusal.SameInWords wording wording' refusal' := by
  rw [check_of_refused h, check_of_refused h', List.singleton_inj, String.append_right_inj,
    eq_comm, Refusal.message_eq_iff (Deployment.namesPlainly_of_ofText h)
      (Deployment.namesPlainly_of_ofText h')]

theorem prints_headerLines (path : String) {headers : List (String × FieldValue)}
    (h : ∀ header ∈ headers, ∃ text, header.2.text? = some text) :
    Prints path headers (headerLines path headers) := by
  refine ⟨headers.map fun (name, value) => (name, value.text?.getD ""), ?_, ?_⟩
  · rw [List.map_map]
    refine List.map_congr_left fun header hm => ?_
    obtain ⟨text, ht⟩ := h header hm
    simp only [Function.comp_apply, ht, Option.getD_some]
  · rw [List.map_map]
    rfl

end CommandLine

/-- Every directive is rendered with a semicolon after it, so that is how a policy ends. -/
theorem Policy.getLast?_render {policy : Policy} (h : policy.isEmpty = false) :
    policy.render.toList.getLast? = some ';' := by
  have hends (first : Directive) (rest : List Directive) :
      (renderDirectives (first :: rest)).toList.getLast? = some ';' := by
    induction rest generalizing first with
    | nil => simp [renderDirectives]
    | cons second rest ih =>
      rw [renderDirectives, String.toList_append, List.getLast?_append, ih]
      rfl
  have hdirectives : policy.directives ≠ [] := by
    intro hn
    have hnone : policy.entries.entries = [] := List.map_eq_nil_iff.1 hn
    rw [isEmpty, OrderedMap.isEmpty, hnone] at h
    cases h
  obtain ⟨first, rest, hd⟩ := List.exists_cons_of_ne_nil hdirectives
  rw [render, hd]
  exact hends first rest

/-- So the line of a header is not the one that tells that there is none. -/
theorem CommandLine.headerLine_ne_emptyLine {header : String × FieldValue} {policy : Policy}
    (hfull : policy.isEmpty = false) (ht : header.2.text? = some policy.render) (path : String) :
    headerLine header ≠ emptyLine path := by
  intro he
  have hempty : ": policy is empty, no header would be sent".toList.getLast? = some 't' := by decide
  have hlast := congrArg (fun line => line.toList.getLast?) he
  simp only [headerLine, ht, Option.getD_some, emptyLine, String.toList_append, List.getLast?_append,
    policy.getLast?_render hfull, hempty, Option.some_or, Option.some.injEq] at hlast
  exact absurd hlast (by decide)

theorem CommandLine.emptyLine_mem_headerLines_iff (path : String)
    {headers : List (String × FieldValue)}
    (h : ∀ header ∈ headers, ∃ policy : Policy, policy.isEmpty = false ∧
      header.2.text? = some policy.render) :
    emptyLine path ∈ headerLines path headers ↔ headers = [] := by
  rw [headerLines]
  split
  · next hn => simp [hn]
  · next hn =>
    refine iff_of_false (fun hm => ?_) hn
    obtain ⟨header, hh, he⟩ := List.mem_map.1 hm
    obtain ⟨policy, hfull, ht⟩ := h header hh
    exact headerLine_ne_emptyLine hfull ht path he

/-- A file passes the check just when a deployment starts with its text, and else the reason is printed for
which none does. The line tells the reason, since no text that is refused for another one gets the same line,
but of a fault in the text it has what the reader says. The lines that are printed for a file that passes are
the headers that a response gets for a request with that user agent for which nothing has been recorded,
with name and value in full and in their order. Whatever has been asked of the deployment, no such request
is refused. -/
theorem check_agrees_with_pass (path text : String) (userAgent : Option String) (wording : Wording)
    (hu : ∀ agent ∈ userAgent, agent.toUTF8.data.all isVisibleByte = true) :
    let report := CommandLine.check path (some text.toUTF8) userAgent wording
    let sent := userAgent.bind FieldValue.ofString?
    sent.map FieldValue.bytes = userAgent.map String.toUTF8 ∧
    (report.code = 0 ↔ ∃ deployment, Deployment.ofText text = .ok deployment) ∧
    (∀ refusal, Deployment.ofText text = .error refusal →
      report = ⟨1, [], [path ++ ": " ++ refusal.message wording]⟩ ∧
      ∀ (other : String) (otherAgent : Option String) (otherWording : Wording) (refusal' : Refusal),
        Deployment.ofText other = .error refusal' →
          ((CommandLine.check path (some other.toUTF8) otherAgent otherWording).err = report.err ↔
            refusal.SameInWords wording otherWording refusal')) ∧
    ∀ deployment, Deployment.ofText text = .ok deployment →
      (∃ attached : List (String × FieldValue),
        CommandLine.Prints path attached report.out ∧
        (CommandLine.emptyLine path ∈ report.out ↔ attached = []) ∧
        ∀ response, ∃ final, (deployment.pass ⟨sent, none, .ok response⟩).result = .ok final ∧
          final.Attaches response attached) ∧
      ∀ (asks : List Ask) (exchange : Exchange), exchange.recorded = none →
        ∀ refusal, ((deployment.run asks).pass exchange).result ≠ .error (.policy refusal) := by
  intro report sent
  obtain ⟨hbytes, htext⟩ := FieldValue.sent_of_visible hu
  have hrefused (refusal : Refusal) (h : Deployment.ofText text = .error refusal) :
      report = ⟨1, [], [path ++ ": " ++ refusal.message wording]⟩ :=
    CommandLine.check_of_refused h path userAgent wording
  have hstarted (deployment : Deployment) (hd : Deployment.ofText text = .ok deployment) :
      ∃ entries, deployment.base.Prints entries ∧
        let attached := (HeaderNames.suiting userAgent).headers entries
        deployment.base.headers (.suiting userAgent) = .ok attached ∧
          report = ⟨0, CommandLine.headerLines path attached, []⟩ := by
    obtain ⟨entries, hprints, hheaders⟩ := (Deployment.reachable_of_ofText hd).headers
    exact ⟨entries, hprints, hheaders _, CommandLine.check_of_started hd (hheaders _) path wording⟩
  refine ⟨hbytes, ?_, fun refusal h => ⟨hrefused refusal h, fun _ otherAgent otherWording _ h' =>
    CommandLine.err_eq_iff_of_refused h h' path userAgent otherAgent wording otherWording⟩,
    fun deployment hd => ⟨?_, ?_⟩⟩
  · cases hd : Deployment.ofText text with
    | error refusal =>
      rw [hrefused refusal hd]
      simp
    | ok deployment =>
      obtain ⟨_, _, _, hreport⟩ := hstarted deployment hd
      rw [hreport]
      simp
  · obtain ⟨entries, hprints, hheaders, hreport⟩ := hstarted deployment hd
    have htexts (header) (hm : header ∈ (HeaderNames.suiting userAgent).headers entries) :
        ∃ policy : Policy, policy.isEmpty = false ∧ header.2.text? = some policy.render := by
      obtain ⟨disposition, hfull, ht⟩ := hprints.text_of_mem hm
      exact ⟨_, hfull, ht⟩
    rw [hreport]
    refine ⟨_, CommandLine.prints_headerLines path fun header hm => ?_,
      CommandLine.emptyLine_mem_headerLines_iff path htexts, fun response => ?_⟩
    · obtain ⟨policy, -, ht⟩ := htexts header hm
      exact ⟨policy.render, ht⟩
    · refine ⟨_, ?_, response.attaches_setHeaders (HeaderNames.nodup_headers _ entries)⟩
      have hnames : (⟨sent, none, .ok response⟩ : Exchange).names = .suiting userAgent :=
        congrArg HeaderNames.suiting htext
      rw [Deployment.result_pass_of_headers rfl (by rw [hnames]; exact hheaders)]
  · intro asks exchange hn
    have hbase := Deployment.reachable_run (Deployment.reachable_of_ofText hd) asks
    exact Deployment.result_pass_ne_refusal hbase hn

/-- A user agent that knows other names for the headers, and a policy that is only reported. -/
theorem check_agrees_with_pass_for_webkit :
    let site : SitePolicies := ⟨⟨[("img-src", ["self", "DATA:"])], by decide⟩,
      ⟨[("report-uri", ["/report"]), ("sandbox", [])], by decide⟩, .ownScope⟩
    let agent := "Version/6.0 Safari/536.25"
    let report := CommandLine.check "policy.json" (some site.render.toUTF8) (some agent)
    ∃ deployment sent, Deployment.ofText site.render = .ok deployment ∧
      FieldValue.ofString? agent = some sent ∧
      report.out = ["x-webkit-csp: img-src 'self' data:;",
        "x-webkit-csp-report-only: report-uri /report;sandbox;"] ∧
      ∃ final, (deployment.pass ⟨some sent, none, .ok ⟨200, []⟩⟩).result = .ok final ∧
        CommandLine.Prints "policy.json" final.headers report.out := by
  intro site agent report
  have hagent : agent.toUTF8.data.all isVisibleByte = true := by decide +kernel
  obtain ⟨sent, hsent, -, -⟩ := FieldValue.ofString?_of_visible hagent
  have hstart : Deployment.ofText site.render = Deployment.start site .csp1 := by
    rw [Deployment.ofText, site.parse_render]
    rfl
  have hout : report.out = ["x-webkit-csp: img-src 'self' data:;",
      "x-webkit-csp-report-only: report-uri /report;sandbox;"] := by
    simp only [report, CommandLine.check, CommandLine.fileHeaders_toUTF8, hstart]
    decide +kernel
  obtain ⟨deployment, hd⟩ : ∃ deployment, Deployment.start site .csp1 = .ok deployment := ⟨_, rfl⟩
  obtain ⟨-, -, -, hagree⟩ := check_agrees_with_pass "policy.json" site.render (some agent) {} (by
    rintro _ ⟨⟩
    exact hagent)
  obtain ⟨⟨attached, hprints, -, hpass⟩, -⟩ := hagree deployment (hstart.trans hd)
  obtain ⟨final, hfinal, hattaches⟩ := hpass ⟨200, []⟩
  refine ⟨deployment, sent, hstart.trans hd, hsent, hout, final, ?_, ?_⟩
  · rw [← hfinal, Option.bind_some, hsent]
  · rw [hattaches.headers]
    exact hprints

end ContentSecurity
